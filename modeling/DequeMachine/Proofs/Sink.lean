import DequeMachine.Streams

namespace DequeMachine.Sink

/-- There is room for so many bytes more. -/
def HasRoom (n : Nat) (s : Sink) : Prop := ∀ l ∈ s.limit, s.kept.size + n ≤ l.room

/-- No more is kept than there is room for. -/
def Fits (s : Sink) : Prop := s.HasRoom 0

def append (b : Bytes) (s : Sink) : Sink := { s with kept := s.kept ++ b }

variable {s : Sink}

@[simp] theorem append_nil (s : Sink) : s.append [] = s := by simp [append]

theorem append_append (a b : Bytes) (s : Sink) : (s.append a).append b = s.append (a ++ b) := by
  have h : s.kept ++ a ++ b = s.kept ++ (a ++ b) := by
    apply Array.toList_inj.mp
    simp only [Array.toList_appendList, List.append_assoc]
  simp only [append, h]

theorem size_kept_append (b : Bytes) (s : Sink) :
    (s.append b).kept.size = s.kept.size + b.length := by
  rw [append, ← Array.length_toList, Array.toList_appendList, List.length_append,
    Array.length_toList]

theorem hasRoom_of_unlimited (h : s.limit = none) (n : Nat) : s.HasRoom n := by simp [HasRoom, h]

theorem HasRoom.mono {m n : Nat} (h : s.HasRoom n) (hmn : m ≤ n) : s.HasRoom m := by
  intro l hl
  have hroom := h l hl
  omega

theorem hasRoom_append {b : Bytes} {n : Nat} :
    (s.append b).HasRoom n ↔ s.HasRoom (b.length + n) := by
  simp only [HasRoom, size_kept_append]
  simp only [append, Nat.add_assoc]

theorem write_of_room {b : Bytes} (h : s.HasRoom b.length) : s.write b = (none, s.append b) := by
  unfold write
  split
  · rename_i room text hlimit
    have hroom : s.kept.size + b.length ≤ room := h ⟨room, text⟩ hlimit
    rw [if_pos hroom, append]
  · rfl

theorem write_of_fst_eq_none {b : Bytes} (h : (s.write b).1 = none) :
    s.write b = (none, s.append b) := by
  unfold write at h ⊢
  split at h
  · split at h
    · rename_i hroom
      rw [if_pos hroom, append]
    · cases h
  · rfl

theorem write_nil (h : s.Fits) : s.write [] = (none, s) := by
  have hroom : s.HasRoom ([] : Bytes).length := h
  rw [write_of_room hroom, append_nil]

theorem exists_limit_of_write {b : Bytes} {text : Text} (h : (s.write b).1 = some text) :
    ∃ l ∈ s.limit, text = l.text := by
  unfold write at h
  split at h
  · rename_i room text' hlimit
    split at h
    · cases h
    · exact ⟨_, hlimit, (Option.some.inj h).symm⟩
  · cases h

/-- A write that fails leaves the beginning of its bytes and not all of them. -/
theorem exists_cut_of_write (hfits : s.Fits) {b : Bytes} {text : Text}
    (h : (s.write b).1 = some text) :
    ∃ wrote, (s.write b).2 = s.append wrote ∧ wrote <+: b ∧ wrote ≠ b := by
  unfold write at h ⊢
  split at h
  · rename_i room text' hlimit
    have hkept : s.kept.size + 0 ≤ room := hfits ⟨room, text'⟩ hlimit
    split at h
    · cases h
    · rename_i hroom
      rw [if_neg hroom]
      refine ⟨b.take (room - s.kept.size), rfl, List.take_prefix _ b, fun htake => ?_⟩
      have hlength := congrArg List.length htake
      rw [List.length_take] at hlength
      omega
  · cases h

theorem limit_write (b : Bytes) (s : Sink) : (s.write b).2.limit = s.limit := by
  unfold write
  repeat' split
  all_goals rfl

theorem Fits.write (h : s.Fits) (b : Bytes) : (s.write b).2.Fits := by
  intro l hl
  rw [limit_write] at hl
  have hkept : s.kept.size + 0 ≤ l.room := h l hl
  unfold Sink.write
  rw [Option.mem_def.mp hl]
  dsimp only
  split
  · rename_i hroom
    exact Nat.le_trans (Nat.le_of_eq (size_kept_append b s)) hroom
  · have hsize := size_kept_append (b.take (l.room - s.kept.size)) s
    rw [List.length_take] at hsize
    have hroom : s.kept.size + min (l.room - s.kept.size) b.length ≤ l.room := by omega
    exact Nat.le_trans (Nat.le_of_eq hsize) hroom

/-- More may have been written to the sink, and nothing else has happened to it. -/
structure Extends (later earlier : Sink) : Prop where
  kept : earlier.kept.toList <+: later.kept.toList
  limit : later.limit = earlier.limit
  flushFailure : later.flushFailure = earlier.flushFailure
  flushes : later.flushes = earlier.flushes

theorem Extends.refl (s : Sink) : s.Extends s := ⟨List.prefix_rfl, rfl, rfl, rfl⟩

theorem Extends.trans {a b c : Sink} (hc : c.Extends b) (hb : b.Extends a) : c.Extends a where
  kept := hb.kept.trans hc.kept
  limit := hc.limit.trans hb.limit
  flushFailure := hc.flushFailure.trans hb.flushFailure
  flushes := hc.flushes.trans hb.flushes

theorem extends_append (b : Bytes) (s : Sink) : (s.append b).Extends s where
  kept := by
    rw [append, Array.toList_appendList]
    exact List.prefix_append _ b
  limit := rfl
  flushFailure := rfl
  flushes := rfl

theorem extends_write (b : Bytes) (s : Sink) : (s.write b).2.Extends s := by
  unfold write
  repeat' split
  all_goals exact extends_append _ s

/-- The sink as a limit would have left it. -/
def cut (l : Limit) (s : Sink) : Sink :=
  { s with kept := (s.kept.toList.take l.room).toArray, limit := some l }

theorem cut_of_room {l : Limit} (h : s.kept.size ≤ l.room) :
    s.cut l = { s with limit := some l } := by
  rw [cut, List.take_of_length_le h, Array.toArray_toList]

/-- A sink that has cut nothing off yet cuts a write where its limit says, and fails if it does. -/
theorem write_cut {l : Limit} (h : s.kept.size ≤ l.room) (b : Bytes) :
    (s.cut l).write b =
      (if (s.append b).kept.size ≤ l.room then none else some l.text, (s.append b).cut l) := by
  have hkept : ((s.append b).kept.toList.take l.room).toArray =
      s.kept ++ b.take (l.room - s.kept.size) := by
    apply Array.toList_inj.mp
    rw [append, Array.toList_appendList, Array.toList_appendList, List.take_append,
      List.take_of_length_le h, Array.length_toList]
  rw [cut_of_room h, cut, hkept, size_kept_append]
  simp only [write]
  by_cases hroom : s.kept.size + b.length ≤ l.room
  · rw [if_pos hroom, if_pos hroom, List.take_of_length_le (by omega)]
    rfl
  · rw [if_neg hroom, if_neg hroom]
    rfl

end DequeMachine.Sink
