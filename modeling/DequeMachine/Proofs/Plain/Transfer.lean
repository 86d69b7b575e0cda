import Mathlib

/-!
# Transfers and their matching

Values enter and leave one at a time. A place where one leaves matches the place where one enters as a closing
bracket matches an opening one: what stands between them is balanced. The places where values enter unmatched
are nested, and the next value to leave matches the latest of them.
-/
namespace DequeMachine.Plain

inductive Transfer
  | enter (v : Int32)
  | leave
  deriving DecidableEq, Repr

namespace Transfer

def value? : Transfer → Option Int32
  | enter v => some v
  | leave => none

/-- The values that enter, first to last. -/
def entered (ts : List Transfer) : List Int32 := ts.filterMap value?

/-- How many values leave. -/
def left (ts : List Transfer) : Nat := ts.count leave

/-- How many more values enter than leave. -/
def depth (ts : List Transfer) : Int := (entered ts).length - left ts

/-- All that enters leaves again, and nothing else does. -/
structure Balanced (ts : List Transfer) : Prop where
  depth : depth ts = 0
  depth_take : ∀ k, 0 ≤ Transfer.depth (ts.take k)

/-- What enters at `i` leaves at `j`: between them only what has entered between them leaves. -/
structure Matched (ts : List Transfer) (i j : Nat) : Prop where
  lt : i < j
  enters : ∃ v, ts[i]? = some (enter v)
  leaves : ts[j]? = some leave
  between : Balanced ((ts.take j).drop (i + 1))

def Unmatched (ts : List Transfer) (i : Nat) : Prop :=
  (∃ v, ts[i]? = some (enter v)) ∧ ∀ j, ¬Matched ts i j

/-- The values that enter at the unmatched places, latest first. -/
def Remain (ts : List Transfer) (xs : List Int32) : Prop :=
  ∃ is : List Nat, is.Pairwise (· > ·) ∧ (∀ i, i ∈ is ↔ Unmatched ts i) ∧
    (is.map fun i => ts[i]?) = xs.map fun v => some (enter v)

variable {ts us : List Transfer} {i j : Nat} {v y : Int32} {xs ys : List Int32} {is : List Nat}

@[simp] theorem depth_nil : depth [] = 0 := rfl

@[simp] theorem depth_append (ts us : List Transfer) : depth (ts ++ us) = depth ts + depth us := by
  simp only [depth, entered, left, List.filterMap_append, List.length_append, List.count_append]
  omega

@[simp] theorem depth_singleton_enter (v : Int32) : depth [enter v] = 1 := rfl

@[simp] theorem depth_singleton_leave : depth [leave] = -1 := rfl

theorem depth_enter (v : Int32) (ts : List Transfer) : depth (enter v :: ts) = 1 + depth ts :=
  depth_append [enter v] ts

theorem depth_take_leave (k : Nat) : -1 ≤ depth ([leave].take k) := by
  cases k <;> simp

theorem balanced_nil : Balanced [] := ⟨rfl, by simp⟩

theorem Balanced.append (h : Balanced ts) (h' : Balanced us) : Balanced (ts ++ us) where
  depth := by rw [depth_append, h.depth, h'.depth, add_zero]
  depth_take k := by
    rw [List.take_append, depth_append]
    exact Int.add_nonneg (h.depth_take k) (h'.depth_take _)

theorem Balanced.wrap (h : Balanced ts) (v : Int32) : Balanced (enter v :: ts ++ [leave]) where
  depth := by
    rw [depth_append, depth_enter, h.depth]
    rfl
  depth_take k := by
    cases k with
    | zero => exact le_rfl
    | succ k =>
      have hts := h.depth_take k
      have hleave := depth_take_leave (k - ts.length)
      rw [List.cons_append, List.take_succ_cons, depth_enter, List.take_append, depth_append]
      omega

/-- What is balanced to the end begins behind one entering value only. -/
theorem Balanced.not_lt (h : Balanced (ts.drop (i + 1))) (h' : Balanced (ts.drop (j + 1)))
    (hj : ts[j]? = some (enter v)) : ¬i < j := by
  intro hij
  obtain ⟨hlt, hget⟩ := List.getElem?_eq_some_iff.mp hj
  have hbefore := h.depth_take (j - (i + 1))
  have hsplit := List.take_append_drop (j - (i + 1)) (ts.drop (i + 1))
  have hat : i + 1 + (j - (i + 1)) = j := by omega
  rw [List.drop_drop, hat, List.drop_eq_getElem_cons hlt, hget] at hsplit
  -- What stands between the two is of depth -1, but it begins a balanced part.
  have hdepth := congrArg Transfer.depth hsplit
  rw [depth_append, depth_enter, h'.depth, h.depth] at hdepth
  omega

theorem getElem?_concat_eq_some {a b : Transfer} :
    (ts ++ [a])[i]? = some b ↔ ts[i]? = some b ∨ i = ts.length ∧ a = b := by
  rcases Nat.lt_trichotomy i ts.length with hi | rfl | hi
  · rw [List.getElem?_append_left hi]
    simp [hi.ne]
  · simp
  · rw [List.getElem?_eq_none (by simp; omega), List.getElem?_eq_none hi.le]
    simp [hi.ne']

theorem matched_concat_iff {a : Transfer} :
    Matched (ts ++ [a]) i j ↔ Matched ts i j ∨
      j = ts.length ∧ a = leave ∧ (∃ v, ts[i]? = some (enter v)) ∧ Balanced (ts.drop (i + 1)) := by
  have hbefore : ∀ {j}, j ≤ ts.length → (ts ++ [a]).take j = ts.take j := List.take_append_of_le_length
  constructor
  · rintro ⟨hij, ⟨v, hi⟩, hleaves, hbetween⟩
    rcases getElem?_concat_eq_some.mp hleaves with hj | ⟨rfl, rfl⟩
    · have hlt := (List.getElem?_eq_some_iff.mp hj).1
      rw [List.getElem?_append_left (hij.trans hlt)] at hi
      rw [hbefore hlt.le] at hbetween
      exact .inl ⟨hij, ⟨v, hi⟩, hj, hbetween⟩
    · rw [List.getElem?_append_left hij] at hi
      rw [List.take_left] at hbetween
      exact .inr ⟨rfl, rfl, ⟨v, hi⟩, hbetween⟩
  · rintro (⟨hij, ⟨v, hi⟩, hj, hbetween⟩ | ⟨rfl, rfl, ⟨v, hi⟩, hbehind⟩)
    · have hlt := (List.getElem?_eq_some_iff.mp hj).1
      rw [← hbefore hlt.le] at hbetween
      exact ⟨hij, ⟨v, getElem?_concat_eq_some.mpr (.inl hi)⟩, getElem?_concat_eq_some.mpr (.inl hj), hbetween⟩
    · have hlt := (List.getElem?_eq_some_iff.mp hi).1
      refine ⟨hlt, ⟨v, getElem?_concat_eq_some.mpr (.inl hi)⟩, List.getElem?_concat_length, ?_⟩
      rwa [List.take_left]

theorem unmatched_concat_enter {k : Nat} :
    Unmatched (ts ++ [enter v]) k ↔ k = ts.length ∨ Unmatched ts k := by
  have hmatched : ∀ j, Matched (ts ++ [enter v]) k j ↔ Matched ts k j := by
    simp [matched_concat_iff]
  constructor
  · rintro ⟨⟨w, hk⟩, hstays⟩
    rcases getElem?_concat_eq_some.mp hk with hk | ⟨rfl, -⟩
    · exact .inr ⟨⟨w, hk⟩, fun j hj => hstays j ((hmatched j).mpr hj)⟩
    · exact .inl rfl
  · rintro (rfl | ⟨⟨w, hk⟩, hstays⟩)
    · refine ⟨⟨v, List.getElem?_concat_length⟩, fun j hj => ?_⟩
      obtain ⟨w, hk⟩ := ((hmatched j).mp hj).enters
      simp at hk
    · exact ⟨⟨w, getElem?_concat_eq_some.mpr (.inl hk)⟩, fun j hj => hstays j ((hmatched j).mp hj)⟩

theorem unmatched_concat_leave {k : Nat} (hi : ts[i]? = some (enter v))
    (hbalanced : Balanced (ts.drop (i + 1))) :
    Unmatched (ts ++ [leave]) k ↔ Unmatched ts k ∧ k ≠ i := by
  constructor
  · rintro ⟨⟨w, hk⟩, hstays⟩
    obtain hk | ⟨-, ⟨⟩⟩ := getElem?_concat_eq_some.mp hk
    refine ⟨⟨⟨w, hk⟩, fun j hj => hstays j (matched_concat_iff.mpr (.inl hj))⟩, ?_⟩
    rintro rfl
    exact hstays _ (matched_concat_iff.mpr (.inr ⟨rfl, rfl, ⟨v, hi⟩, hbalanced⟩))
  · rintro ⟨⟨⟨w, hk⟩, hstays⟩, hne⟩
    refine ⟨⟨w, getElem?_concat_eq_some.mpr (.inl hk)⟩, fun j hj => ?_⟩
    rcases matched_concat_iff.mp hj with hj | ⟨-, -, -, hbetween⟩
    · exact hstays j hj
    · -- What leaves now would match `k` as well as `i`.
      have hki := hbetween.not_lt hbalanced hi
      have hik := hbalanced.not_lt hbetween hk
      omega

/-- Nothing but balanced parts stands behind, between and in front of the places where the values entered. -/
inductive Nested : List Transfer → List Nat → List Int32 → Prop
  | balanced {ts : List Transfer} (h : Balanced ts) : Nested ts [] []
  | enter {ts us : List Transfer} {is : List Nat} {xs : List Int32} (h : Nested ts is xs) (v : Int32)
    (hus : Balanced us) : Nested (ts ++ enter v :: us) (ts.length :: is) (v :: xs)

theorem Nested.append (h : Nested ts is xs) (hus : Balanced us) : Nested (ts ++ us) is xs := by
  cases h with
  | balanced hts => exact .balanced (hts.append hus)
  | enter h v hvs =>
    rw [List.append_assoc, List.cons_append]
    exact .enter h v (hvs.append hus)

theorem Nested.lt_length (h : Nested ts is xs) : ∀ i ∈ is, i < ts.length := by
  induction h with
  | balanced _ => simp
  | enter h v _ ih =>
    intro i hi
    rw [List.length_append, List.length_cons]
    rcases List.mem_cons.mp hi with rfl | hi
    · omega
    · have hlt := ih i hi
      omega

theorem Nested.pairwise (h : Nested ts is xs) : is.Pairwise (· > ·) := by
  induction h with
  | balanced _ => exact .nil
  | enter h v _ ih => exact .cons h.lt_length ih

theorem Nested.getElem? (h : Nested ts is xs) :
    (is.map fun i => ts[i]?) = xs.map fun v => some (.enter v) := by
  induction h with
  | balanced _ => rfl
  | @enter ts us is xs h v _ ih =>
    have hbefore : ∀ i ∈ is, (ts ++ .enter v :: us)[i]? = ts[i]? :=
      fun i hi => List.getElem?_append_left (h.lt_length i hi)
    have hat : (ts ++ .enter v :: us)[ts.length]? = some (.enter v) := by simp
    rw [List.map_cons, List.map_cons, hat, List.map_congr_left hbefore, ih]

/-- The places of the values `xs`, which are the unmatched ones. -/
structure Open (ts : List Transfer) (is : List Nat) (xs : List Int32) : Prop where
  nested : Nested ts is xs
  mem_iff : ∀ i, i ∈ is ↔ Unmatched ts i

theorem Open.remain (h : Open ts is xs) : Remain ts xs :=
  ⟨is, h.nested.pairwise, h.mem_iff, h.nested.getElem?⟩

theorem open_nil : Open [] [] [] := by
  refine ⟨.balanced balanced_nil, fun i => ?_⟩
  constructor
  · rintro ⟨⟩
  · rintro ⟨⟨v, hi⟩, -⟩
    cases hi

theorem Open.enter (h : Open ts is xs) (v : Int32) :
    Open (ts ++ [.enter v]) (ts.length :: is) (v :: xs) := by
  refine ⟨h.nested.enter v balanced_nil, fun k => ?_⟩
  rw [List.mem_cons, h.mem_iff, unmatched_concat_enter]

/-- The latest value entered at the latest unmatched place, and only a balanced part follows. -/
theorem Open.leave (h : Open ts is (y :: ys)) :
    ∃ i rest, ts[i]? = some (.enter y) ∧ Balanced (ts.drop (i + 1)) ∧ IsGreatest {k | Unmatched ts k} i ∧
      Open (ts ++ [.leave]) rest ys := by
  obtain ⟨hnested, hmem⟩ := h
  cases hnested with
  | @enter ts us is _ hnested _ hus =>
    have hi : (ts ++ .enter y :: us)[ts.length]? = some (.enter y) := by simp
    have hbehind : Balanced ((ts ++ .enter y :: us).drop (ts.length + 1)) := by
      rwa [← List.drop_drop, List.drop_left, List.drop_one, List.tail_cons]
    refine ⟨ts.length, is, hi, hbehind, ⟨(hmem _).mp List.mem_cons_self, fun k hk => ?_⟩, ?_, fun k => ?_⟩
    · rcases List.mem_cons.mp ((hmem k).mpr hk) with rfl | hk
      · exact le_rfl
      · exact (hnested.lt_length k hk).le
    · rw [List.append_assoc]
      exact hnested.append (hus.wrap y)
    · have hlt := hnested.lt_length k
      rw [unmatched_concat_leave hi hbehind, ← hmem, List.mem_cons]
      constructor
      · exact fun hk => ⟨.inr hk, (hlt hk).ne⟩
      · rintro ⟨hk | hk, hne⟩
        · exact absurd hk hne
        · exact hk

end Transfer

end DequeMachine.Plain
