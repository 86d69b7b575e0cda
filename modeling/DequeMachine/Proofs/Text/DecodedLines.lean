import DequeMachine.Proofs.Text.Lines
import DequeMachine.Proofs.Text.Lossy

namespace DequeMachine

namespace Utf8

open Bytes (newline)

theorem eq_newline_of_mem {c : Char} (h : newline ∈ String.utf8EncodeChar c) : c = '\n' :=
  eq_ofNat_of_mem h (by decide)

theorem newline_notMem_encode {t : Text} (h : '\n' ∉ t) : newline ∉ encode t := by
  intro hmem
  obtain ⟨c, hc, hnewline⟩ := List.mem_flatMap.mp hmem
  rw [eq_newline_of_mem hnewline] at hc
  exact h hc

/-- A beginning either ends in front of the newline or holds it. -/
theorem prefix_or_newline_mem {other a b : Bytes} (h : other <+: a ++ newline :: b) :
    other <+: a ∨ newline ∈ other := by
  rcases Nat.lt_or_ge a.length other.length with hlt | hle
  · have hnewline : a ++ [newline] <+: a ++ newline :: b := ⟨b, by simp⟩
    have hbegins := List.prefix_of_prefix_length_le hnewline h (by simpa using hlt)
    exact .inr (hbegins.subset (by simp))
  · exact .inl (List.prefix_of_prefix_length_le h (List.prefix_append a _) hle)

/-- A newline that follows some bytes takes nothing away from what is ill-formed in front of them. -/
theorem IsIllFormed.append_newline {part a : Bytes} (h : IsIllFormed part a) (b : Bytes) :
    IsIllFormed part (a ++ newline :: b) where
  begins := h.begins.trans (List.prefix_append a _)
  nonempty := h.nonempty
  unconvertible := by
    intro c hc
    rcases prefix_or_newline_mem hc with hprefix | hmem
    · exact h.unconvertible c hprefix
    · -- Only a newline has this byte in its encoding, and it would have to begin where `part` does.
      obtain rfl := eq_newline_of_mem hmem
      have hlength : 1 ≤ a.length :=
        (List.length_pos_iff.mpr h.nonempty).trans_le h.begins.length_le
      exact h.unconvertible '\n' (List.prefix_of_prefix_length_le hc (List.prefix_append a _) hlength)
  subpart := h.subpart
  longest := by
    intro other hprefix hbegins
    rcases prefix_or_newline_mem hprefix with hprefix | hmem
    · exact h.longest other hprefix hbegins
    · obtain ⟨c, hc⟩ := hbegins
      obtain rfl := eq_newline_of_mem (hc.subset hmem)
      have hlength := hc.length_le
      have hpart := List.length_pos_iff.mpr h.nonempty
      exact hlength.trans hpart

theorem Lossy.append_newline {a b : Bytes} {t u : Text} (ha : Lossy a t) (hb : Lossy b u) :
    Lossy (a ++ newline :: b) (t ++ '\n' :: u) := by
  induction ha with
  | nil => exact .character '\n' hb
  | character c _ ih =>
    rw [List.append_assoc]
    exact .character c ih
  | illFormed h _ ih =>
    have hpart := h.append_newline b
    rw [List.append_assoc] at hpart ⊢
    exact .illFormed hpart ih

theorem decode_append_newline (a b : Bytes) :
    decode (a ++ newline :: b) = decode a ++ '\n' :: decode b :=
  (lossy_iff.mp ((lossy_decode a).append_newline (lossy_decode b))).symm

theorem newline_notMem_decode {b : Bytes} (h : newline ∉ b) : '\n' ∉ decode b := by
  intro hmem
  rcases mem_decode hmem with hreplacement | hwithin
  · exact absurd hreplacement (by decide)
  · exact h (hwithin.subset (by decide))

/-- The pieces between newlines, decoded one by one, are the pieces of the decoded text. -/
theorem map_decode_splitOn (b : Bytes) :
    (b.splitOn newline).map decode = (decode b).splitOn '\n' := by
  induction hn : b.length using Nat.strong_induction_on generalizing b with
  | _ n ih =>
    by_cases hmem : newline ∈ b
    · obtain ⟨first, rest, rfl, hfirst⟩ := List.eq_append_cons_of_mem hmem
      have hrest := ih rest.length (by simp at hn; omega) rest rfl
      rw [decode_append_newline, List.splitOn_append_cons_self_of_not_mem hfirst,
        List.splitOn_append_cons_self_of_not_mem (newline_notMem_decode hfirst), List.map_cons, hrest]
    · rw [List.splitOn_eq_singleton hmem, List.splitOn_eq_singleton (newline_notMem_decode hmem)]
      rfl

end Utf8

/-- The lines of a text, without an empty one behind the last newline. -/
def Text.lines (t : Text) : List Text :=
  let pieces := t.splitOn '\n'
  if pieces.getLastD [] = [] then pieces.dropLast else pieces

theorem Bytes.lines_eq (b : Bytes) : b.lines =
    if (b.splitOn newline).getLastD [] = [] then (b.splitOn newline).dropLast
    else b.splitOn newline := by
  have hlast : (b.splitOn newline).getLastD [] = (b.splitOn newline).getLast (splitOn_ne_nil b) := by
    rw [List.getLastD_eq_getLast?, List.getLast?_eq_some_getLast (splitOn_ne_nil b)]
    rfl
  rw [lines, unfinishedLine, finishedLines]
  simp only [List.isEmpty_iff]
  split
  · rfl
  · rw [hlast, List.dropLast_append_getLast]

namespace Utf8

theorem map_decode_lines (b : Bytes) : b.lines.map decode = Text.lines (decode b) := by
  have hlast : ((decode b).splitOn '\n').getLastD [] =
      decode ((b.splitOn Bytes.newline).getLastD []) := by
    rw [← map_decode_splitOn, List.getLastD_eq_getLast?, List.getLastD_eq_getLast?,
      List.getLast?_map, List.getLast?_eq_some_getLast (Bytes.splitOn_ne_nil b)]
    rfl
  rw [Bytes.lines_eq, Text.lines, hlast, ← map_decode_splitOn]
  simp only [decode_eq_nil_iff]
  split
  · rw [List.map_dropLast]
  · rfl

/-- Texts without newlines are the decoded lines of what they are put together to. -/
theorem map_decode_lines_unlines {ts : List Text} (h : ∀ t ∈ ts, '\n' ∉ t) :
    (Bytes.unlines (ts.map encode)).lines.map decode = ts := by
  have hnewline : ∀ l ∈ ts.map encode, Bytes.newline ∉ l := by
    intro l hl
    obtain ⟨t, ht, rfl⟩ := List.mem_map.mp hl
    exact newline_notMem_encode (h t ht)
  rw [Bytes.lines_unlines hnewline, map_decode_encode]

/-- A text written out again has the lines that it was decoded from, one for one. -/
theorem map_decode_lines_encode (b : Bytes) :
    (encode (decode b)).lines.map decode = b.lines.map decode := by
  rw [map_decode_lines, map_decode_lines, decode_encode]

end Utf8

end DequeMachine
