import Mathlib

/-!
# Joined texts

Texts that are joined by a character which none of them has are told apart by the whole
(`intercalate_inj`), and a text is cut at the last and at the first occurrence of a character in one way
(`append_cons_inj_last`, `append_cons_inj_first`).
-/

namespace RecurrenceCompiler

section
variable {α : Type} {c : α}

/-- A text is cut at the last occurrence of a character in one way. -/
theorem append_cons_inj_last {as bs as' bs' : List α} (hbs : c ∉ bs) (hbs' : c ∉ bs')
    (h : as ++ c :: bs = as' ++ c :: bs') : as = as' ∧ bs = bs' := by
  rcases List.append_eq_append_iff.1 h with ⟨t, rfl, ht⟩ | ⟨t, rfl, ht⟩
  · cases t with
    | nil => simpa using ht
    | cons d t =>
      obtain ⟨rfl, rfl⟩ := List.cons.inj ht
      simp at hbs
  · cases t with
    | nil => simpa using ht.symm
    | cons d t =>
      obtain ⟨rfl, rfl⟩ := List.cons.inj ht
      simp at hbs'

/-- A text is cut at the first occurrence of a character in one way. -/
theorem append_cons_inj_first {as bs as' bs' : List α} (has : c ∉ as) (has' : c ∉ as')
    (h : as ++ c :: bs = as' ++ c :: bs') : as = as' ∧ bs = bs' := by
  have hrev := congrArg List.reverse h
  simp only [List.reverse_append, List.reverse_cons, List.append_assoc, List.singleton_append] at hrev
  obtain ⟨hbs, has⟩ := append_cons_inj_last (by simpa using has) (by simpa using has') hrev
  exact ⟨List.reverse_inj.1 has, List.reverse_inj.1 hbs⟩

/-- Two joined texts are joined. -/
theorem intercalate_append {glue : List α} {as bs : List (List α)} (ha : as ≠ []) (hb : bs ≠ []) :
    glue.intercalate (as ++ bs) = glue.intercalate as ++ glue ++ glue.intercalate bs := by
  induction as with
  | nil => exact absurd rfl ha
  | cons a as ih =>
    rw [List.cons_append, List.intercalate_cons_of_ne_nil (by simp [hb])]
    cases as with
    | nil => rw [List.intercalate_singleton, List.nil_append]
    | cons a' as =>
      rw [ih (by simp), List.intercalate_cons_cons]
      simp only [List.append_assoc]

/-- The characters of a joined text are those of its parts and of the joint. -/
theorem mem_intercalate {d : α} {glue : List α} {ls : List (List α)} (h : d ∈ glue.intercalate ls) :
    d ∈ glue ∨ ∃ l ∈ ls, d ∈ l := by
  induction ls with
  | nil => simp at h
  | cons l ls ih =>
    cases ls with
    | nil => exact .inr ⟨l, by simp, by simpa using h⟩
    | cons l' ls =>
      rw [List.intercalate_cons_cons, List.mem_append, List.mem_append] at h
      rcases h with (h | h) | h
      · exact .inr ⟨l, by simp, h⟩
      · exact .inl h
      · exact (ih h).imp_right fun ⟨m, hm, hd⟩ => ⟨m, List.mem_cons_of_mem _ hm, hd⟩

/-- **Parts without the joint are told apart by the joined text.** -/
theorem intercalate_inj [DecidableEq α] {ls ls' : List (List α)} (hls : ∀ l ∈ ls, l ≠ [] ∧ c ∉ l)
    (hls' : ∀ l ∈ ls', l ≠ [] ∧ c ∉ l) (h : [c].intercalate ls = [c].intercalate ls') : ls = ls' := by
  have hempty {ls : List (List α)} (hls : ∀ l ∈ ls, l ≠ [] ∧ c ∉ l)
      (h : [c].intercalate ls = []) : ls = [] := by
    cases ls with
    | nil => rfl
    | cons l ls =>
      have hl := (hls l (by simp)).1
      cases ls with
      | nil => simp [hl] at h
      | cons l' ls => simp [List.intercalate_cons_cons] at h
  rcases ls.eq_nil_or_concat with rfl | ⟨_, _, hne⟩
  · exact (hempty hls' h.symm).symm
  · rcases ls'.eq_nil_or_concat with rfl | ⟨_, _, hne'⟩
    · exact hempty hls h
    · have hsplit := List.splitOn_intercalate c (fun l hl => (hls l hl).2) (by simp [hne])
      rw [h, List.splitOn_intercalate c (fun l hl => (hls' l hl).2) (by simp [hne'])] at hsplit
      exact hsplit.symm

end

end RecurrenceCompiler
