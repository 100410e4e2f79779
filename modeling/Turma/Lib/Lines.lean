import Mathlib.Data.List.Basic

/-! Splitting a sequence at a separator: the first line with what follows it, all the terminated
lines with the unterminated rest, and how both go on when the sequence grows. -/

namespace Turma.Lib

variable {α : Type*} [DecidableEq α] (sep : α)

def cutLine : List α → Option (List α × List α)
  | [] => none
  | x :: xs => if x = sep then some ([], xs) else (cutLine xs).map fun (l, rest) => (x :: l, rest)

def splitLines : List α → List (List α) × List α
  | [] => ([], [])
  | x :: xs =>
    let (ls, rest) := splitLines xs
    if x = sep then ([] :: ls, rest)
    else match ls with
      | [] => ([], x :: rest)
      | l :: ls => ((x :: l) :: ls, rest)

theorem length_of_cutLine {xs l rest : List α} (h : cutLine sep xs = some (l, rest)) :
    rest.length < xs.length := by
  induction xs generalizing l with
  | nil => simp [cutLine] at h
  | cons x xs ih =>
    rw [cutLine] at h
    split at h
    · obtain ⟨-, rfl⟩ := Prod.mk.inj (Option.some.inj h)
      simp
    · obtain ⟨⟨l', r'⟩, hc, he⟩ := Option.map_eq_some_iff.mp h
      obtain ⟨-, rfl⟩ := Prod.mk.inj he
      have := ih hc
      simp only [List.length_cons]
      omega

theorem splitLines_of_cutLine_none {xs : List α} (h : cutLine sep xs = none) :
    splitLines sep xs = ([], xs) := by
  induction xs with
  | nil => rfl
  | cons x xs ih =>
    rw [cutLine] at h
    split at h
    · simp at h
    · rename_i hx
      rw [splitLines, ih (Option.map_eq_none_iff.mp h)]
      simp [hx]

theorem splitLines_of_cutLine {xs l rest : List α} (h : cutLine sep xs = some (l, rest)) :
    splitLines sep xs = (l :: (splitLines sep rest).1, (splitLines sep rest).2) := by
  induction xs generalizing l with
  | nil => simp [cutLine] at h
  | cons x xs ih =>
    rw [cutLine] at h
    split at h
    · rename_i hx
      obtain ⟨rfl, rfl⟩ := Prod.mk.inj (Option.some.inj h)
      simp [splitLines, hx]
    · rename_i hx
      obtain ⟨⟨l', r'⟩, hc, he⟩ := Option.map_eq_some_iff.mp h
      obtain ⟨rfl, rfl⟩ := Prod.mk.inj he
      rw [splitLines, ih hc]
      simp [hx]

/-- The lines of a grown sequence: those it had, and then those of its rest with the growth. -/
theorem splitLines_append (xs ys : List α) :
    splitLines sep (xs ++ ys) =
      ((splitLines sep xs).1 ++ (splitLines sep ((splitLines sep xs).2 ++ ys)).1,
        (splitLines sep ((splitLines sep xs).2 ++ ys)).2) := by
  induction xs with
  | nil => rfl
  | cons x xs ih =>
    rw [List.cons_append, splitLines, ih]
    by_cases hx : x = sep
    · simp [splitLines, hx]
    · rcases hs : splitLines sep xs with ⟨_ | ⟨l, ls⟩, rest⟩
      · simp [splitLines, hs, hx]
      · simp [splitLines, hs, hx]

end Turma.Lib
