import Mathlib
import RecurrenceCompiler.Text.Units

/-!
# Sorted lists and the order of texts

Sorting by insertion permutes a list (`sortBy_perm`) and puts it in order (`pairwise_sortBy`). The code units of a
text determine the text (`units_injective`), so the order of texts by code units is a linear order. Sorting puts
texts in that order (`pairwise_sortByUnits`), and it does not matter in which order they were before
(`sortByUnits_eq_of_perm`).
-/

namespace RecurrenceCompiler

section
variable {α : Type} (le : α → α → Bool)

theorem insertBy_perm (a : α) (l : List α) : (insertBy le a l).Perm (a :: l) := by
  induction l with
  | nil => exact .refl _
  | cons b l ih =>
    rw [insertBy]
    split
    · exact .refl _
    · exact (ih.cons b).trans (.swap ..)

/-- **Sorting permutes a list.** -/
theorem sortBy_perm (l : List α) : (sortBy le l).Perm l := by
  induction l with
  | nil => exact .refl _
  | cons a l ih => exact (insertBy_perm le a _).trans (ih.cons a)

variable {le}

theorem pairwise_insertBy (htrans : ∀ a b c, le a b = true → le b c = true → le a c = true)
    (htotal : ∀ a b, le a b = true ∨ le b a = true) (a : α) {l : List α}
    (h : l.Pairwise fun a b => le a b = true) : (insertBy le a l).Pairwise fun a b => le a b = true := by
  induction l with
  | nil => exact List.pairwise_singleton ..
  | cons b l ih =>
    obtain ⟨hb, hl⟩ := List.pairwise_cons.1 h
    rw [insertBy]
    split
    · next hab => exact .cons (List.forall_mem_cons.2 ⟨hab, fun c hc => htrans a b c hab (hb c hc)⟩) h
    · next hab =>
      refine .cons (fun c hc => ?_) (ih hl)
      rcases List.mem_cons.1 ((insertBy_perm le a l).mem_iff.1 hc) with rfl | hc
      · exact (htotal c b).resolve_left hab
      · exact hb c hc

/-- **A sorted list is in order.** -/
theorem pairwise_sortBy (htrans : ∀ a b c, le a b = true → le b c = true → le a c = true)
    (htotal : ∀ a b, le a b = true ∨ le b a = true) (l : List α) :
    (sortBy le l).Pairwise fun a b => le a b = true := by
  induction l with
  | nil => exact .nil
  | cons a l ih => exact pairwise_insertBy htrans htotal a ih

end

end RecurrenceCompiler

namespace RecurrenceCompiler.Text

/-! ## Code units -/

/-- The first units of a text determine its first character: a surrogate is no character. -/
theorem charUnits_append_inj {c d : Char} {us vs : List Nat}
    (h : charUnits c ++ us = charUnits d ++ vs) : c = d ∧ us = vs := by
  have hc : c.toNat < 0xd800 ∨ 0xdfff < c.toNat ∧ c.toNat < 0x110000 := c.valid
  have hd : d.toNat < 0xd800 ∨ 0xdfff < d.toNat ∧ d.toNat < 0x110000 := d.valid
  rw [← Char.toNat_inj]
  simp only [charUnits] at h
  split at h <;> split at h <;>
    simp only [List.cons_append, List.nil_append, List.cons.injEq] at h
  · exact h
  · omega
  · omega
  · exact ⟨by omega, h.2.2⟩

/-- **A text is determined by its code units.** -/
theorem units_injective : Function.Injective units := by
  have hlist {cs ds : List Char} (h : cs.flatMap charUnits = ds.flatMap charUnits) : cs = ds := by
    have hne (c : Char) (us : List Nat) : charUnits c ++ us ≠ [] := by
      simp only [charUnits]
      split <;> simp
    induction cs generalizing ds with
    | nil =>
      cases ds with
      | nil => rfl
      | cons d ds => exact absurd h.symm (hne d _)
    | cons c cs ih =>
      cases ds with
      | nil => exact absurd h (hne c _)
      | cons d ds =>
        obtain ⟨rfl, hrest⟩ := charUnits_append_inj h
        rw [ih hrest]
  intro s t h
  exact String.toList_injective (hlist h)

/-! ## The order of texts -/

theorem lexLe_total (ms ns : List Nat) : lexLe ms ns = true ∨ lexLe ns ms = true := by
  induction ms generalizing ns with
  | nil => exact .inl rfl
  | cons m ms ih =>
    cases ns with
    | nil => exact .inr rfl
    | cons n ns =>
      simp only [lexLe, Bool.or_eq_true, Bool.and_eq_true, decide_eq_true_eq, beq_iff_eq]
      rcases lt_trichotomy m n with h | rfl | h
      · exact .inl (.inl h)
      · exact (ih ns).imp (fun h => .inr ⟨rfl, h⟩) fun h => .inr ⟨rfl, h⟩
      · exact .inr (.inl h)

theorem lexLe_trans {ks ms ns : List Nat} (h : lexLe ks ms = true) (h' : lexLe ms ns = true) :
    lexLe ks ns = true := by
  induction ks generalizing ms ns with
  | nil => rfl
  | cons k ks ih =>
    cases ms with
    | nil => cases h
    | cons m ms =>
      cases ns with
      | nil => cases h'
      | cons n ns =>
        simp only [lexLe, Bool.or_eq_true, Bool.and_eq_true, decide_eq_true_eq, beq_iff_eq] at h h' ⊢
        rcases h with h | ⟨rfl, h⟩
        · rcases h' with h' | ⟨rfl, -⟩
          · exact .inl (h.trans h')
          · exact .inl h
        · rcases h' with h' | ⟨rfl, h'⟩
          · exact .inl h'
          · exact .inr ⟨rfl, ih h h'⟩

theorem lexLe_antisymm {ms ns : List Nat} (h : lexLe ms ns = true) (h' : lexLe ns ms = true) :
    ms = ns := by
  induction ms generalizing ns with
  | nil =>
    cases ns with
    | nil => rfl
    | cons n ns => cases h'
  | cons m ms ih =>
    cases ns with
    | nil => cases h
    | cons n ns =>
      simp only [lexLe, Bool.or_eq_true, Bool.and_eq_true, decide_eq_true_eq, beq_iff_eq] at h h'
      rcases h with h | ⟨rfl, h⟩
      · rcases h' with h' | ⟨rfl, -⟩
        · exact absurd h' h.asymm
        · exact absurd h (lt_irrefl _)
      · rw [ih h (h'.resolve_left (lt_irrefl _)).2]

/-- Texts that come before each other are equal. -/
theorem unitsLe_antisymm {s t : String} (h : unitsLe s t = true) (h' : unitsLe t s = true) : s = t :=
  units_injective (lexLe_antisymm h h')

/-! ## Sorted texts -/

/-- **Sorted names are in the order of their code units.** -/
theorem pairwise_sortByUnits (xs : List String) :
    (sortByUnits xs).Pairwise fun a b => unitsLe a b = true :=
  @pairwise_sortBy _ unitsLe (fun _ _ _ => lexLe_trans) (fun _ _ => lexLe_total _ _) xs

/-- **Sorting gives one list whatever the order before.** -/
theorem sortByUnits_eq_of_perm {xs ys : List String} (h : xs.Perm ys) :
    sortByUnits xs = sortByUnits ys := by
  have hperm : (sortByUnits xs).Perm (sortByUnits ys) :=
    (sortBy_perm unitsLe xs).trans (h.trans (sortBy_perm unitsLe ys).symm)
  exact hperm.eq_of_pairwise (fun _ _ _ _ => unitsLe_antisymm) (pairwise_sortByUnits xs)
    (pairwise_sortByUnits ys)

end RecurrenceCompiler.Text
