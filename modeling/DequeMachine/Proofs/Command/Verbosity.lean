import DequeMachine.Command.Run
import DequeMachine.Proofs.Command.Arguments

namespace DequeMachine.Arguments

variable {α : Type} {p q : Progress} {a : Arguments} {args before after : List Text} {flag : Text}

/-- The same file, one step louder. -/
def louder (a : Arguments) : Arguments :=
  { a with verbosity := min maxVerbosity (a.verbosity + 1) }

/-- The argument is a flag for a louder journal and nothing more. -/
def IsLouder (flag : Text) : Prop := flag = "-v".toList ∨ flag = "--verbose".toList

theorem takeFile_louder (p : Progress) (name : Text) :
    p.louder.takeFile name = Progress.louder <$> p.takeFile name := by
  unfold Progress.takeFile
  rw [apply_ite (Progress.louder <$> ·)]
  rfl

theorem shortFlag_louder (p : Progress) (flag : Char) :
    shortFlag p.louder flag = Progress.louder <$> shortFlag p flag := by
  unfold shortFlag
  split <;> rfl

theorem longFlag_louder (name : Text) (p : Progress) :
    longFlag name p.louder = Progress.louder <$> longFlag name p := by
  unfold longFlag
  split
  · rfl
  · split
    · rfl
    · split <;> rfl

/-- Steps that do the same one step louder do the same in a row. -/
theorem foldlM_louder {step : Progress → α → Except Stop Progress}
    (hstep : ∀ p x, step p.louder x = Progress.louder <$> step p x) (xs : List α) (p : Progress) :
    xs.foldlM step p.louder = Progress.louder <$> xs.foldlM step p := by
  induction xs generalizing p with
  | nil => rfl
  | cons x xs ih =>
    rw [List.foldlM_cons, List.foldlM_cons, hstep, bind_map_left, map_bind]
    exact bind_congr ih

theorem takeArgument_louder (p : Progress) (t : Text) :
    takeArgument p.louder t = Progress.louder <$> takeArgument p t := by
  unfold takeArgument
  split
  · exact longFlag_louder _ p
  · exact foldlM_louder shortFlag_louder _ p
  · exact takeFile_louder p t

theorem read_louder (p : Progress) (args : List Text) :
    read p.louder args = Progress.louder <$> read p args := by
  induction args generalizing p with
  | nil => rfl
  | cons t args ih =>
    rw [read, read]
    by_cases hend : t = endOfFlags
    · rw [if_pos hend, if_pos hend]
      exact foldlM_louder takeFile_louder args p
    · rw [if_neg hend, if_neg hend, takeArgument_louder, bind_map_left, map_bind]
      exact bind_congr ih

theorem finish_louder (p : Progress) : p.louder.finish = louder <$> p.finish := by
  obtain ⟨_ | file, verbosity⟩ := p
  · rfl
  · rfl

theorem IsLouder.read_cons (h : IsLouder flag) (p : Progress) (args : List Text) :
    read p (flag :: args) = Progress.louder <$> read p args := by
  rw [← read_louder]
  obtain rfl | rfl := h
  · rfl
  · rfl

theorem IsLouder.read_inserted (h : IsLouder flag) (hbefore : endOfFlags ∉ before) (p : Progress)
    (after : List Text) :
    read p (before ++ flag :: after) = Progress.louder <$> read p (before ++ after) := by
  induction before generalizing p with
  | nil => exact h.read_cons p after
  | cons t before ih =>
    have hend : t ≠ endOfFlags := fun heq => hbefore (heq ▸ List.mem_cons_self)
    rw [List.cons_append, List.cons_append, read, read, if_neg hend, if_neg hend, map_bind]
    exact bind_congr (ih fun hmem => hbefore (List.mem_cons_of_mem t hmem))

theorem IsLouder.parse_eq (h : IsLouder flag) (hbefore : endOfFlags ∉ before) (after : List Text) :
    parse (before ++ flag :: after) = louder <$> parse (before ++ after) := by
  rw [parse, parse, h.read_inserted hbefore, bind_map_left, map_bind]
  exact bind_congr finish_louder

/-- Before the end of flags a file does not begin with a dash, unless it is nothing else. -/
def isFile : Text → Bool
  | '-' :: _ :: _ => false
  | _ => true

/-- The arguments that are files. -/
def files : List Text → List Text
  | [] => []
  | t :: rest => if t = endOfFlags then rest else if isFile t then t :: files rest else files rest

/-- What was read in between named these files. -/
def Progress.Names (later : Progress) (names : List Text) (earlier : Progress) : Prop :=
  later.file.toList = earlier.file.toList ++ names

theorem Progress.Names.trans {r : Progress} {first rest : List Text} (hr : r.Names rest q)
    (hq : q.Names first p) : r.Names (first ++ rest) p := by
  rw [Names, hr, hq, List.append_assoc]

theorem Progress.names_of_file_eq (h : q.file = p.file) : q.Names [] p := by
  rw [Names, h, List.append_nil]

open Progress (names_of_file_eq)

theorem names_takeFile {name : Text} (h : p.takeFile name = .ok q) : q.Names [name] p := by
  unfold Progress.takeFile at h
  split at h
  · cases h
  · rename_i hname
    have hnone : p.file = none := by
      cases hfile : p.file with
      | none => rfl
      | some file => simp [hfile] at hname
    cases h
    rw [Progress.Names, hnone]
    rfl

theorem names_shortFlag {flag : Char} (h : shortFlag p flag = .ok q) : q.Names [] p := by
  unfold shortFlag at h
  split at h
  · cases h
    exact names_of_file_eq rfl
  · cases h
  · cases h
  · cases h

theorem names_longFlag {name : Text} (h : longFlag name p = .ok q) : q.Names [] p := by
  unfold longFlag at h
  split at h
  · cases h
    exact names_of_file_eq rfl
  · split at h
    · cases h
    · split at h
      · cases h
      · cases h

theorem names_foldlM {step : Progress → α → Except Stop Progress} (names : α → List Text)
    (hstep : ∀ p x q, step p x = .ok q → q.Names (names x) p) {xs : List α}
    (h : xs.foldlM step p = .ok q) : q.Names (xs.flatMap names) p := by
  induction xs generalizing p with
  | nil =>
    cases h
    exact names_of_file_eq rfl
  | cons x xs ih =>
    rw [List.foldlM_cons] at h
    obtain ⟨p', hx, hrest⟩ := exists_ok_of_bind h
    rw [List.flatMap_cons]
    exact (ih hrest).trans (hstep p x p' hx)

theorem names_takeArgument {t : Text} (h : takeArgument p t = .ok q) :
    q.Names (if isFile t then [t] else []) p := by
  unfold takeArgument at h
  split at h
  · exact names_longFlag h
  · rename_i flag flags _
    have hnames := names_foldlM (fun _ => []) (fun p flag q => names_shortFlag) h
    have hnone : (flag :: flags).flatMap (fun _ => ([] : List Text)) = [] :=
      List.flatMap_eq_nil_iff.mpr fun _ _ => rfl
    rwa [hnone] at hnames
  · rename_i hshort
    have hfile : isFile t = true := by
      unfold isFile
      split
      · exact absurd rfl (hshort _ _)
      · rfl
    rw [if_pos hfile]
    exact names_takeFile h

theorem names_read (h : read p args = .ok q) : q.Names (files args) p := by
  induction args generalizing p with
  | nil =>
    cases h
    exact names_of_file_eq rfl
  | cons t args ih =>
    rw [read] at h
    rw [files]
    by_cases hend : t = endOfFlags
    · rw [if_pos hend] at h ⊢
      have hnames := names_foldlM (fun name => [name]) (fun p name q => names_takeFile) h
      rwa [List.flatMap_singleton'] at hnames
    · rw [if_neg hend] at h ⊢
      obtain ⟨p', ht, hrest⟩ := exists_ok_of_bind h
      have hnames := (ih hrest).trans (names_takeArgument ht)
      by_cases hfile : isFile t
      · rwa [if_pos hfile] at hnames ⊢
      · rwa [if_neg hfile] at hnames ⊢

/-- The file is the one argument that is a file. -/
theorem files_eq (h : parse args = .ok a) : files args = [a.file] := by
  obtain ⟨p, hread, hfile, -⟩ := exists_read h
  have hnames := names_read hread
  rw [Progress.Names, hfile] at hnames
  exact hnames.symm

/-- How much is logged after so many flags. -/
def detail : Nat → Level
  | 0 => .warn
  | 1 => .info
  | 2 => .debug
  | _ => .trace

theorem rank_detail (n : Nat) : (detail n).rank = min (n + 2) 5 := by
  match n with
  | 0 | 1 | 2 => rfl
  | n + 3 => exact (min_eq_right (Nat.le_add_left 5 n)).symm

theorem detail_min (n : Nat) : detail (min maxVerbosity n) = detail n := by
  match n with
  | 0 | 1 | 2 => rfl
  | n + 3 =>
    obtain ⟨k, hk⟩ : ∃ k, min maxVerbosity (n + 3) = k + 3 :=
      Nat.exists_eq_add_of_le' (le_min (by decide) (Nat.le_add_left 3 n))
    rw [hk]
    rfl

theorem level_eq (h : parse args = .ok a) : a.level = detail (louderCount args) := by
  rw [← detail_min, ← verbosity_eq h]
  rfl

/-- More flags never admit less. -/
theorem rank_level_le {args' : List Text} {a' : Arguments} (h : parse args = .ok a) (h' : parse args' = .ok a')
    (hcount : louderCount args ≤ louderCount args') : a.level.rank ≤ a'.level.rank := by
  rw [level_eq h, level_eq h', rank_detail, rank_detail]
  omega

/-- Wherever one more flag for a louder journal stands before the end of flags, arguments that ask for help, for
the version or for nothing sensible still do, and others ask for the same file one step louder. The file is the
only one among the arguments, the verbosity is the number of these flags up to a bound, and the filter follows
from that number: the more there are, the more it admits. -/
theorem parse_inserted (hbefore : endOfFlags ∉ before) (hflag : IsLouder flag) (after : List Text) :
    parse (before ++ flag :: after) = (parse (before ++ after)).map louder ∧
    ∀ args a, parse args = .ok a →
      files args = [a.file] ∧ a.verbosity = min maxVerbosity (louderCount args) ∧
      a.level = detail (louderCount args) ∧
      ∀ args' a', parse args' = .ok a' → louderCount args ≤ louderCount args' →
        a.level.rank ≤ a'.level.rank ∧
        ∀ l r, (Command.filter l none a).filter.admits r → (Command.filter l none a').filter.admits r := by
  refine ⟨hflag.parse_eq hbefore after, fun args a h => ?_⟩
  refine ⟨files_eq h, verbosity_eq h, level_eq h, fun args' a' h' hcount => ?_⟩
  have hrank := rank_level_le h h' hcount
  refine ⟨hrank, fun l r hr => ?_⟩
  have hfilter : ∀ b : Arguments,
      (Command.filter l none b).filter.admits r = decide (r.level.rank ≤ b.level.rank) :=
    fun b => Journal.Filter.admits_upTo b.level r
  rw [hfilter, decide_eq_true_eq] at hr ⊢
  exact hr.trans hrank

/-- Behind the end of flags a flag is a file, and where as many flags as count ask for more, another one changes
nothing. -/
theorem parse_inserted_saturated :
    let loudest := '-' :: List.replicate 255 'v'
    let file := "-v".toList
    endOfFlags ∉ [loudest] ∧ IsLouder "--verbose".toList ∧
      parse [loudest, endOfFlags, file] = .ok ⟨file, 255⟩ ∧
      parse [loudest, "--verbose".toList, endOfFlags, file] = .ok ⟨file, 255⟩ ∧
      files [loudest, endOfFlags, file] = [file] := by
  intro loudest file
  have hbefore : endOfFlags ∉ [loudest] := by decide
  have hflag : IsLouder "--verbose".toList := .inr rfl
  have hparse : parse [loudest, endOfFlags, file] = .ok ⟨file, 255⟩ := by decide +kernel
  obtain ⟨hinserted, hparsed⟩ := parse_inserted hbefore hflag [endOfFlags, file]
  refine ⟨hbefore, hflag, hparse, hinserted.trans ?_, (hparsed _ _ hparse).1⟩
  exact congrArg (Except.map louder) hparse

end DequeMachine.Arguments
