import Mathlib.Data.List.Basic

/-!
# Segments of a stream

A separator ends each segment of a stream; what follows the last separator is left over. A stream
that comes in pieces has the same segments, if what is left over of one piece is put before the
next.
-/

namespace GmaEngine.StreamSegments

variable {α : Type*} [BEq α] [LawfulBEq α] (sep : α)

/-- The segments that are ended. -/
def ended (xs : List α) : List (List α) := (xs.splitOn sep).dropLast

def leftOver (xs : List α) : List α := (xs.splitOn sep).getLast?.getD []

variable {sep}

theorem splitOn_cons_sep (xs : List α) : (sep :: xs).splitOn sep = [] :: xs.splitOn sep := by
  rw [List.splitOn, List.splitOnP_cons_eq_if_modifyHead, if_pos (beq_self_eq_true sep)]
  rfl

theorem splitOn_cons_of_ne {x : α} (hx : x ≠ sep) (xs : List α) :
    (x :: xs).splitOn sep = (xs.splitOn sep).modifyHead (x :: ·) := by
  rw [List.splitOn, List.splitOnP_cons_eq_if_modifyHead, if_neg (by simpa using hx)]
  rfl

omit [LawfulBEq α] in
theorem splitOn_eq (xs : List α) : xs.splitOn sep = ended sep xs ++ [leftOver sep xs] := by
  have hne : xs.splitOn sep ≠ [] := List.splitOnP_ne_nil _ xs
  rw [ended, leftOver, List.getLast?_eq_getLast_of_ne_nil hne, Option.getD_some,
    List.dropLast_concat_getLast hne]

omit [LawfulBEq α] in
theorem ended_and_leftOver {xs : List α} {segs : List (List α)} {rest : List α}
    (h : xs.splitOn sep = segs ++ [rest]) : ended sep xs = segs ∧ leftOver sep xs = rest := by
  constructor
  · rw [ended, h, List.dropLast_concat]
  · rw [leftOver, h, List.getLast?_concat, Option.getD_some]

/-- What is left over is cut again together with what follows. -/
theorem splitOn_append (xs ys : List α) :
    (xs ++ ys).splitOn sep = ended sep xs ++ (leftOver sep xs ++ ys).splitOn sep := by
  induction xs with
  | nil => rfl
  | cons x xs ih =>
    by_cases hx : x = sep
    · subst hx
      have hsplit : (x :: xs).splitOn x = ([] :: ended x xs) ++ [leftOver x xs] := by
        rw [splitOn_cons_sep, splitOn_eq xs]
        rfl
      obtain ⟨hended, hleft⟩ := ended_and_leftOver hsplit
      rw [hended, hleft, List.cons_append, splitOn_cons_sep, ih]
      rfl
    · have hsplit := splitOn_cons_of_ne hx xs
      rw [List.cons_append, splitOn_cons_of_ne hx, ih]
      cases hsegs : ended sep xs with
      | nil =>
        rw [splitOn_eq xs, hsegs] at hsplit
        change (x :: xs).splitOn sep = [] ++ [x :: leftOver sep xs] at hsplit
        obtain ⟨hended, hleft⟩ := ended_and_leftOver hsplit
        rw [hended, hleft, List.nil_append, List.nil_append, List.cons_append,
          splitOn_cons_of_ne hx]
      | cons seg segs =>
        rw [splitOn_eq xs, hsegs] at hsplit
        change (x :: xs).splitOn sep = ((x :: seg) :: segs) ++ [leftOver sep xs] at hsplit
        obtain ⟨hended, hleft⟩ := ended_and_leftOver hsplit
        rw [hended, hleft]
        rfl

theorem ended_append (xs ys : List α) :
    ended sep (xs ++ ys) = ended sep xs ++ ended sep (leftOver sep xs ++ ys) := by
  have hsplit : (xs ++ ys).splitOn sep = _ := splitOn_append xs ys
  rw [splitOn_eq (leftOver sep xs ++ ys), ← List.append_assoc] at hsplit
  exact (ended_and_leftOver hsplit).1

theorem leftOver_append (xs ys : List α) :
    leftOver sep (xs ++ ys) = leftOver sep (leftOver sep xs ++ ys) := by
  have hsplit : (xs ++ ys).splitOn sep = _ := splitOn_append xs ys
  rw [splitOn_eq (leftOver sep xs ++ ys), ← List.append_assoc] at hsplit
  exact (ended_and_leftOver hsplit).2

/-- One more element ends an empty segment, or it is put before the first one. -/
theorem mem_splitOn_cons {x : α} {xs seg : List α} (h : seg ∈ (x :: xs).splitOn sep) :
    seg = [] ∨ seg ∈ xs.splitOn sep ∨ x ≠ sep ∧ ∃ first ∈ xs.splitOn sep, seg = x :: first := by
  by_cases hx : x = sep
  · subst hx
    rw [splitOn_cons_sep] at h
    exact (List.mem_cons.mp h).imp_right .inl
  · rw [splitOn_cons_of_ne hx] at h
    cases hsplit : xs.splitOn sep with
    | nil => exact absurd hsplit (List.splitOnP_ne_nil _ xs)
    | cons first segs =>
      rw [hsplit] at h
      rcases List.mem_cons.mp h with rfl | h
      · exact .inr (.inr ⟨hx, first, List.mem_cons_self, rfl⟩)
      · exact .inr (.inl (List.mem_cons_of_mem _ h))

/-- No segment contains the separator. -/
theorem sep_notMem (xs : List α) : ∀ seg ∈ xs.splitOn sep, sep ∉ seg := by
  induction xs with
  | nil => simp
  | cons x xs ih =>
    intro seg hseg
    rcases mem_splitOn_cons hseg with rfl | hold | ⟨hx, first, hfirst, rfl⟩
    · exact List.not_mem_nil
    · exact ih seg hold
    · intro hmem
      rcases List.mem_cons.mp hmem with heq | hmem
      · exact hx heq.symm
      · exact ih first hfirst hmem

theorem subset_of_mem_splitOn (xs : List α) : ∀ seg ∈ xs.splitOn sep, seg ⊆ xs := by
  induction xs with
  | nil => simp
  | cons x xs ih =>
    intro seg hseg
    rcases mem_splitOn_cons hseg with rfl | hold | ⟨-, first, hfirst, rfl⟩
    · exact List.nil_subset _
    · exact List.subset_cons_of_subset x (ih seg hold)
    · exact List.cons_subset_cons x (ih first hfirst)

theorem isPrefix_of_notMem {xs : List α} (h : sep ∉ xs) (ys : List α) :
    ∃ seg segs, (xs ++ ys).splitOn sep = seg :: segs ∧ xs <+: seg := by
  induction xs with
  | nil =>
    obtain ⟨seg, segs, hsplit⟩ := List.exists_cons_of_ne_nil (List.splitOnP_ne_nil (· == sep) ys)
    exact ⟨seg, segs, hsplit, List.nil_prefix⟩
  | cons x xs ih =>
    obtain ⟨hx, hxs⟩ := not_or.mp (fun hmem => h (List.mem_cons.mpr hmem))
    obtain ⟨seg, segs, hsplit, hpre⟩ := ih hxs
    refine ⟨x :: seg, segs, ?_, List.cons_prefix_cons.mpr ⟨rfl, hpre⟩⟩
    rw [List.cons_append, splitOn_cons_of_ne (Ne.symm hx), hsplit, List.modifyHead_cons]

theorem sep_notMem_leftOver (xs : List α) : sep ∉ leftOver sep xs := by
  apply sep_notMem xs
  rw [splitOn_eq xs]
  exact List.mem_append_right _ (List.mem_singleton_self _)

/-- What is left over grows into a segment of the longer stream. -/
theorem leftOver_isPrefix (xs ys : List α) :
    ∃ seg ∈ (xs ++ ys).splitOn sep, leftOver sep xs <+: seg := by
  obtain ⟨seg, segs, hsplit, hpre⟩ := isPrefix_of_notMem (sep_notMem_leftOver xs) ys
  refine ⟨seg, ?_, hpre⟩
  rw [splitOn_append, hsplit]
  exact List.mem_append_right _ List.mem_cons_self

theorem concat_sep (xs : List α) :
    ended sep (xs ++ [sep]) = ended sep xs ++ [leftOver sep xs] ∧ leftOver sep (xs ++ [sep]) = [] := by
  have hcut : (xs ++ [sep]).splitOn sep = xs.splitOn sep ++ [[]] :=
    List.splitOnP_append_cons (p := (· == sep)) xs [] (beq_self_eq_true sep)
  apply ended_and_leftOver
  rw [hcut, splitOn_eq xs]

theorem concat_of_ne {x : α} (hx : x ≠ sep) (xs : List α) :
    ended sep (xs ++ [x]) = ended sep xs ∧ leftOver sep (xs ++ [x]) = leftOver sep xs ++ [x] := by
  have hsep : sep ∉ leftOver sep xs ++ [x] := by
    intro hmem
    rcases List.mem_append.mp hmem with hmem | hmem
    · exact sep_notMem_leftOver xs hmem
    · exact hx (List.mem_singleton.mp hmem).symm
  have hone : (leftOver sep xs ++ [x]).splitOn sep = [leftOver sep xs ++ [x]] := by
    apply List.splitOnP_eq_singleton
    intro y hy
    rw [beq_eq_false_iff_ne]
    rintro rfl
    exact hsep hy
  apply ended_and_leftOver
  rw [splitOn_append, hone]

end GmaEngine.StreamSegments
