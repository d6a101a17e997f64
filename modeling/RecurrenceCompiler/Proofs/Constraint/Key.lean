import RecurrenceCompiler.Constraint.Guard
import RecurrenceCompiler.Proofs.Arith.Names
import RecurrenceCompiler.Proofs.Sorting

/-!
# Constraints and their texts

A constraint that was read from a text is read back from its own rendering (`Spelled.read`), and no
side of it holds the double ampersand that joins constraints. So a key, which joins renderings in
sorted order, determines the constraints of a guard up to their order (`Guard.perm_of_key_eq`), and it
does not depend on that order (`Guard.key_eq_of_perm`).
-/

namespace RecurrenceCompiler

open Text Arith

/-! ## Searching a text -/

/-- A needle without the separator lies on one side of it. -/
theorem infix_of_infix_separated {n a b : List Char} {c : Char} (hc : c ∉ n)
    (h : n <:+: a ++ c :: b) : n <:+: a ∨ n <:+: b := by
  obtain ⟨s, t, hst⟩ := h
  rw [List.append_assoc] at hst
  rcases List.append_eq_append_iff.1 hst with ⟨u, ha, hu⟩ | ⟨u, hs, hu⟩
  · -- The needle starts in the first part; it ends there too.
    rcases List.append_eq_append_iff.1 hu with ⟨w, hw, -⟩ | ⟨w, hw, hw'⟩
    · exact .inl ⟨s, w, by rw [ha, hw, List.append_assoc]⟩
    · rcases w with _ | ⟨d, w⟩
      · exact .inl ⟨s, [], by simp_all⟩
      · obtain ⟨rfl, -⟩ := List.cons.inj hw'
        exact absurd (by rw [hw]; simp) hc
  · rcases u with _ | ⟨d, u⟩
    · rcases n with _ | ⟨d, n⟩
      · exact .inl (List.nil_infix)
      · obtain ⟨rfl, -⟩ := List.cons.inj hu
        exact absurd (by simp) hc
    · obtain ⟨rfl, hb⟩ := List.cons.inj hu
      exact .inr ⟨u, t, by rw [List.append_assoc]; exact hb.symm⟩

/-- A needle is not found exactly if it is not there. -/
theorem cutAt?_eq_none {n cs : List Char} (hn : n ≠ []) : cutAt? n cs = none ↔ ¬ n <:+: cs := by
  induction cs with
  | nil => simp [cutAt?, hn]
  | cons c cs ih =>
    rw [cutAt?, List.infix_cons_iff, not_or, ← ih, ← List.isPrefixOf_iff_prefix]
    split <;> simp_all

/-- A character cuts a text where it comes first. -/
theorem cutAt?_char {c : Char} {a : List Char} (h : c ∉ a) (b : List Char) :
    cutAt? [c] (a ++ c :: b) = some (a, b) := by
  induction a with
  | nil => simp [cutAt?]
  | cons d a ih =>
    rw [List.mem_cons, not_or] at h
    rw [List.cons_append, cutAt?, ih h.2, if_neg (by simpa using h.1)]
    rfl

/-- A needle that is found cuts the text at its first occurrence. -/
theorem cutAt?_eq_some {n cs l r : List Char} (hn : n ≠ []) (h : cutAt? n cs = some (l, r)) :
    cs = l ++ (n ++ r) ∧ ¬ n <:+: l := by
  induction cs generalizing l r with
  | nil => simp [cutAt?, hn] at h
  | cons c cs ih =>
    rw [cutAt?] at h
    split at h
    · next hp =>
      cases h
      obtain ⟨t, ht⟩ := List.isPrefixOf_iff_prefix.1 hp
      refine ⟨?_, by simpa using hn⟩
      rw [← ht]
      simp
    · next hp =>
      obtain ⟨⟨l', r'⟩, hcut, heq⟩ := Option.map_eq_some_iff.1 h
      cases heq
      obtain ⟨rfl, hl⟩ := ih hcut
      refine ⟨rfl, ?_⟩
      rw [List.infix_cons_iff, not_or]
      refine ⟨fun hpre => hp (List.isPrefixOf_iff_prefix.2 ?_), hl⟩
      exact hpre.trans ⟨n ++ r, by simp⟩

/-- The first occurrence of a needle after a text without it and a separator that is not in it. -/
theorem cutAt?_separated {n a b : List Char} {c : Char} (hn : n ≠ []) (hc : c ∉ n)
    (ha : ¬ n <:+: a) : cutAt? n (a ++ c :: (n ++ b)) = some (a ++ [c], b) := by
  induction a with
  | nil =>
    have hpre : ¬ n.isPrefixOf (c :: (n ++ b)) := by
      rw [List.isPrefixOf_iff_prefix]
      rintro ⟨t, ht⟩
      rcases n with _ | ⟨d, n⟩
      · exact hn rfl
      · obtain ⟨rfl, -⟩ := List.cons.inj ht
        simp at hc
    have hfound : cutAt? n (n ++ b) = some ([], b) := by
      cases hnb : n ++ b with
      | nil => simp_all
      | cons d cs =>
        have hp : n.isPrefixOf (d :: cs) := List.isPrefixOf_iff_prefix.2 ⟨b, hnb⟩
        rw [cutAt?, if_pos hp, ← hnb]
        simp
    rw [List.nil_append, cutAt?, if_neg hpre, hfound]
    rfl
  | cons d a ih =>
    rw [List.infix_cons_iff, not_or] at ha
    have hpre : ¬ n.isPrefixOf (d :: (a ++ c :: (n ++ b))) := by
      rw [List.isPrefixOf_iff_prefix]
      intro hp
      have hpart : (d :: a) ++ [c] <+: d :: (a ++ c :: (n ++ b)) := ⟨n ++ b, by simp⟩
      rcases List.prefix_or_prefix_of_prefix hp hpart with h | h
      · rcases List.prefix_concat_iff.1 h with rfl | h
        · exact hc (by simp)
        · exact ha.1 h
      · exact hc (h.subset (by simp))
    rw [List.cons_append, cutAt?, if_neg hpre, ih ha.2]
    rfl

/-! ## Constraints read back -/

namespace Comparison

theorem text_ne_nil (op : Comparison) : op.text.toList ≠ [] := by
  cases op <;> decide

theorem blank_not_mem_text (op : Comparison) : ' ' ∉ op.text.toList := by
  cases op <;> decide

end Comparison

/-- A blank before a text is trimmed. -/
theorem trim_cons_blank (l : List Char) : trim (' ' :: l) = trim l := rfl

/-- A blank after a text is trimmed. -/
theorem trim_append_blank (l : List Char) : trim (l ++ [' ']) = trim l := by
  have hstart : trimStart (l ++ [' ']) = trimStart l ++ [' '] ∨
      trimStart (l ++ [' ']) = [] ∧ trimStart l = [] := by
    rw [trimStart, List.dropWhile_append]
    split
    · next h => exact .inr ⟨rfl, List.isEmpty_iff.1 h⟩
    · exact .inl rfl
  rw [trim, trim]
  rcases hstart with h | ⟨h, h'⟩
  · rw [h, trimEnd, trimEnd, List.reverse_append]
    rfl
  · rw [h, h']

/-- Trimming leaves a part of a text. -/
theorem infix_of_trim (l : List Char) : trim l <:+: l := by
  obtain ⟨bs, heq, -⟩ := exists_trimEnd_append (trimStart l)
  have hstart : trimStart l <:+ l := List.dropWhile_suffix isBlank
  have hend : trim l <+: trimStart l := ⟨bs, heq.symm⟩
  exact hend.isInfix.trans hstart.isInfix

namespace Constraint

/-- The two sides of a constraint with the comparison between them, set off by blanks. -/
def spaced (c : Constraint) : List Char :=
  c.left.toList ++ ' ' :: (c.op.text.toList ++ ' ' :: c.right.toList)

/-- The parts of a constraint that is found are parts of the text. -/
theorem infix_of_ofChars? {cs : List Char} {ops : List Comparison} {c : Constraint}
    (h : ofChars? cs ops = some c) :
    c.left.toList <:+: cs ∧ c.op.text.toList <:+: cs ∧ c.right.toList <:+: cs := by
  induction ops with
  | nil => cases h
  | cons op ops ih =>
    rw [ofChars?] at h
    split at h
    · exact ih h
    · next l r hcut =>
      dsimp only at h
      split at h
      · cases h
      · cases h
        obtain ⟨rfl, -⟩ := cutAt?_eq_some op.text_ne_nil hcut
        rw [String.toList_ofList, String.toList_ofList]
        refine ⟨(infix_of_trim l).trans ⟨[], op.text.toList ++ r, by simp⟩, ⟨l, r, by simp⟩,
          (infix_of_trim r).trans ⟨l ++ op.text.toList, [], by simp⟩⟩

/-- **A constraint that is found is found in its own text.** -/
theorem ofChars?_spaced {cs : List Char} {ops : List Comparison} {c : Constraint}
    (h : ofChars? cs ops = some c) : ofChars? c.spaced ops = some c := by
  obtain ⟨hleft, hop, hright⟩ := infix_of_ofChars? h
  induction ops with
  | nil => cases h
  | cons op ops ih =>
    rw [ofChars?] at h ⊢
    split at h
    · next hnone =>
      -- A comparison that is not in the text is in none of its parts.
      have habsent : cutAt? op.text.toList c.spaced = none := by
        rw [cutAt?_eq_none op.text_ne_nil] at hnone ⊢
        intro hin
        rcases infix_of_infix_separated op.blank_not_mem_text hin with hin | hin
        · exact hnone (hin.trans hleft)
        · rcases infix_of_infix_separated op.blank_not_mem_text hin with hin | hin
          · exact hnone (hin.trans hop)
          · exact hnone (hin.trans hright)
      rw [habsent]
      exact ih h
    · next l r hcut =>
      dsimp only at h
      split at h
      · cases h
      · next hne =>
        cases h
        obtain ⟨-, hl⟩ := cutAt?_eq_some op.text_ne_nil hcut
        have hfound := cutAt?_separated (b := ' ' :: trim r) op.text_ne_nil op.blank_not_mem_text
          (fun hin => hl (hin.trans (infix_of_trim l)))
        rw [spaced, String.toList_ofList, String.toList_ofList, hfound]
        simp only [trim_append_blank, trim_cons_blank, trim_trim, hne]
        rfl

/-- A constraint that was read from a text without a double ampersand. -/
structure Spelled (c : Constraint) : Prop where
  read : ofChars? c.spaced Comparison.searchOrder = some c
  left : ¬ "&&".toList <:+: c.left.toList
  right : ¬ "&&".toList <:+: c.right.toList

/-- Reading a part of a guard gives such a constraint. -/
theorem spelled_of_parse {cs : List Char} {c : Constraint} (hcs : ¬ "&&".toList <:+: cs)
    (h : Constraint.parse (String.ofList cs) = .ok c) : c.Spelled := by
  rw [Constraint.parse, String.toList_ofList] at h
  split at h
  · next hc =>
    cases h
    obtain ⟨hleft, -, hright⟩ := infix_of_ofChars? hc
    exact ⟨ofChars?_spaced hc, fun h => hcs (h.trans hleft), fun h => hcs (h.trans hright)⟩
  · cases h

/-- The rendering of a constraint. -/
theorem toList_render (c : Constraint) : c.render.toList = '(' :: (c.spaced ++ [')']) := by
  simp [render, spaced]

/-- A rendering holds no double ampersand. -/
theorem Spelled.render {c : Constraint} (h : c.Spelled) : ¬ "&&".toList <:+: c.render.toList := by
  have hsep {d : Char} {a b : List Char} (hd : d ∉ "&&".toList) (ha : ¬ "&&".toList <:+: a)
      (hb : ¬ "&&".toList <:+: b) : ¬ "&&".toList <:+: a ++ d :: b := fun hin =>
    (infix_of_infix_separated hd hin).elim ha hb
  have hnil : ¬ "&&".toList <:+: [] := by decide
  have hop : ¬ "&&".toList <:+: c.op.text.toList := by cases c.op <;> decide
  rw [toList_render, spaced]
  exact hsep (a := []) (by decide) hnil (hsep (by decide)
    (hsep (by decide) h.left (hsep (by decide) hop h.right)) hnil)

end Constraint

/-! ## Keys -/

namespace Guard

theorem splitAnd_ne_nil (cs : List Char) : splitAnd cs ≠ [] := by
  fun_cases splitAnd cs <;> simp_all

/-- A character that starts no double ampersand belongs to the first part. -/
theorem splitAnd_cons {c : Char} {cs : List Char} (h : ¬ "&&".toList <+: c :: cs) :
    ∃ part parts, splitAnd cs = part :: parts ∧ splitAnd (c :: cs) = (c :: part) :: parts := by
  obtain ⟨part, parts, hparts⟩ := List.exists_cons_of_ne_nil (splitAnd_ne_nil cs)
  refine ⟨part, parts, hparts, ?_⟩
  rw [splitAnd, hparts]
  rintro cs rfl rfl
  exact h ⟨cs, rfl⟩

/-- The first part of a text starts like the text, and no part holds a double ampersand. -/
theorem splitAnd_parts (cs : List Char) :
    (∀ part ∈ (splitAnd cs).head?, part <+: cs) ∧
      ∀ part ∈ splitAnd cs, ¬ "&&".toList <:+: part := by
  induction cs using splitAnd.induct with
  | case1 => simp [splitAnd]
  | case2 cs ih =>
    refine ⟨by simp [splitAnd], fun part hpart => ?_⟩
    rw [splitAnd, List.mem_cons] at hpart
    rcases hpart with rfl | hpart
    · decide
    · exact ih.2 part hpart
  | case3 c cs hc hnil ih => exact absurd hnil (splitAnd_ne_nil cs)
  | case4 c cs hc part parts hparts ih =>
    have hpre : ¬ "&&".toList <+: c :: cs := by
      rintro ⟨t, ht⟩
      obtain ⟨rfl, rfl⟩ : '&' = c ∧ '&' :: t = cs := by simpa using ht
      exact hc t rfl rfl
    obtain ⟨part', parts', hparts', hcons⟩ := splitAnd_cons hpre
    rw [hparts] at hparts' ih
    cases hparts'
    rw [hcons]
    have hpart : part <+: cs := ih.1 part rfl
    have hhead : c :: part <+: c :: cs := List.cons_prefix_cons.2 ⟨rfl, hpart⟩
    refine ⟨fun p hp => by rwa [← Option.mem_some.1 hp], fun p hp => ?_⟩
    rcases List.mem_cons.1 hp with rfl | hp
    · rw [List.infix_cons_iff, not_or]
      exact ⟨fun h => hpre (h.trans hhead), ih.2 part (by simp)⟩
    · exact ih.2 p (by simp [hp])

/-- The first part of a text ends at the first double ampersand. -/
theorem splitAnd_append {a : List Char} (b : List Char) (ha : ¬ "&&".toList <:+: a) :
    splitAnd (a ++ ' ' :: '&' :: '&' :: b) = (a ++ [' ']) :: splitAnd b := by
  induction a with
  | nil => rfl
  | cons c a ih =>
    rw [List.infix_cons_iff, not_or] at ha
    have hpre : ¬ "&&".toList <+: c :: (a ++ ' ' :: '&' :: '&' :: b) := by
      intro hp
      refine ha.1 ?_
      rcases a with _ | ⟨d, a⟩
      · simp at hp
      · simpa using hp
    obtain ⟨part, parts, hparts, hcons⟩ := splitAnd_cons hpre
    rw [List.cons_append, hcons]
    rw [ih ha.2] at hparts
    cases hparts
    rfl

theorem splitAnd_self {a : List Char} (ha : ¬ "&&".toList <:+: a) : splitAnd a = [a] := by
  induction a with
  | nil => rfl
  | cons c a ih =>
    rw [List.infix_cons_iff, not_or] at ha
    obtain ⟨part, parts, hparts, hcons⟩ := splitAnd_cons ha.1
    rw [ih ha.2] at hparts
    cases hparts
    exact hcons

/-- Every constraint of a guard that is read is spelled so. -/
theorem spelled_of_parseParts {parts : List (List Char)} {cs : List Constraint}
    (hparts : ∀ part ∈ parts, ¬ "&&".toList <:+: part) (h : parseParts parts = .ok cs) :
    ∀ c ∈ cs, c.Spelled := by
  induction parts generalizing cs with
  | nil =>
    cases h
    simp
  | cons part parts ih =>
    have hrest := fun p hp => hparts p (List.mem_cons_of_mem part hp)
    rw [parseParts] at h
    split at h
    · exact ih hrest h
    · obtain ⟨c, hc, h⟩ := bind_ok h
      obtain ⟨cs, hcs, h⟩ := bind_ok h
      cases h
      intro d hd
      rcases List.mem_cons.1 hd with rfl | hd
      · exact Constraint.spelled_of_parse (hparts part (by simp)) hc
      · exact ih hrest hcs d hd

/-- The constraints of a guard that is read can be told apart by their renderings. -/
theorem spelled_of_parse {texts : List String} {g : Guard} (h : Guard.parse texts = .ok g) :
    ∀ c ∈ g.constraints, c.Spelled := by
  obtain ⟨cs, hcs, h⟩ := bind_ok h
  cases h
  refine spelled_of_parseParts (fun part hpart => ?_) hcs
  obtain ⟨t, -, hpart⟩ := List.mem_flatMap.1 hpart
  exact (splitAnd_parts t.toList).2 part hpart

/-- The text of renderings that are joined. -/
def joined (rs : List String) : List Char :=
  (" && ".intercalate rs).toList

theorem joined_cons_cons (r r' : String) (rs : List String) :
    joined (r :: r' :: rs) = r.toList ++ ' ' :: '&' :: '&' :: ' ' :: joined (r' :: rs) := by
  simp [joined, String.toList_intercalate]

/-- A rendering has no blanks around it. -/
theorem trim_render (c : Constraint) : trim c.render.toList = c.render.toList := by
  rw [Constraint.toList_render, trim, trimStart, List.dropWhile_cons_of_neg (by decide), trimEnd]
  simp [isBlank]

/-- Renderings are found again in the text that joins them. -/
theorem parts_joined {rs : List String} (hne : rs ≠ [])
    (hrs : ∀ s ∈ rs, ∃ c : Constraint, c.Spelled ∧ s = c.render) :
    (splitAnd (joined rs)).map trim = rs.map String.toList := by
  induction rs with
  | nil => exact absurd rfl hne
  | cons r rs ih =>
    obtain ⟨c, hc, rfl⟩ := hrs r (by simp)
    cases rs with
    | nil =>
      have hjoined : joined [c.render] = c.render.toList := by simp [joined]
      rw [hjoined, splitAnd_self hc.render, List.map_singleton, List.map_singleton, trim_render]
    | cons r' rs =>
      have ih := ih (by simp) fun s hs => hrs s (by simp [hs])
      obtain ⟨part, parts, hparts, hcons⟩ :=
        @splitAnd_cons ' ' (joined (r' :: rs)) (by simp)
      rw [hparts] at ih
      rw [joined_cons_cons, splitAnd_append _ hc.render, hcons, List.map_cons, List.map_cons,
        trim_append_blank, trim_render, trim_cons_blank, List.map_cons, ← ih, List.map_cons]

/-- Joined texts are equal only if the renderings are. -/
theorem joined_inj {rs rs' : List String}
    (hrs : ∀ s ∈ rs, ∃ c : Constraint, c.Spelled ∧ s = c.render)
    (hrs' : ∀ s ∈ rs', ∃ c : Constraint, c.Spelled ∧ s = c.render) (h : joined rs = joined rs') :
    rs = rs' := by
  have hnil {rs : List String} (hrs : ∀ s ∈ rs, ∃ c : Constraint, c.Spelled ∧ s = c.render)
      (h : joined rs = []) : rs = [] := by
    by_contra hne
    have hparts := parts_joined hne hrs
    rw [h] at hparts
    obtain ⟨r, rfl⟩ : ∃ r, rs = [r] := by
      rw [← List.length_eq_one_iff, ← List.length_map String.toList, ← hparts]
      rfl
    obtain ⟨c, -, rfl⟩ := hrs r (by simp)
    rw [List.map_singleton, Constraint.toList_render] at hparts
    cases hparts
  rcases eq_or_ne rs [] with rfl | hne
  · exact (hnil hrs' h.symm).symm
  · rcases eq_or_ne rs' [] with rfl | hne'
    · exact hnil hrs h
    · have hparts := parts_joined hne hrs
      rw [h, parts_joined hne' hrs'] at hparts
      exact (List.map_injective_iff.2 (fun _ _ h => String.toList_injective h) hparts).symm

/-- The constraint of a rendering. -/
def unrender (s : String) : Option Constraint :=
  Constraint.ofChars? s.toList.tail.dropLast Comparison.searchOrder

theorem unrender_render {c : Constraint} (h : c.Spelled) : unrender c.render = some c := by
  rw [unrender, Constraint.toList_render, List.tail_cons, List.dropLast_concat]
  exact h.read

/-- **Guards with the same key have the same constraints up to order.** -/
theorem perm_of_key_eq {g h : Guard} (hg : ∀ c ∈ g.constraints, c.Spelled)
    (hh : ∀ c ∈ h.constraints, c.Spelled) (hkey : g.key = h.key) :
    g.constraints.Perm h.constraints := by
  have hsort (g : Guard) : (sortByUnits (g.constraints.map Constraint.render)).Perm
      (g.constraints.map Constraint.render) := sortBy_perm _ _
  have hrender {g : Guard} (hg : ∀ c ∈ g.constraints, c.Spelled) :
      ∀ s ∈ sortByUnits (g.constraints.map Constraint.render),
        ∃ c : Constraint, c.Spelled ∧ s = c.render := by
    intro s hs
    obtain ⟨c, hc, rfl⟩ := List.mem_map.1 ((hsort g).mem_iff.1 hs)
    exact ⟨c, hg c hc, rfl⟩
  have hread {g : Guard} (hg : ∀ c ∈ g.constraints, c.Spelled) :
      (g.constraints.map Constraint.render).map unrender = g.constraints.map some := by
    rw [List.map_map]
    exact List.map_congr_left fun c hc => unrender_render (hg c hc)
  have heq := joined_inj (hrender hg) (hrender hh) (congrArg String.toList hkey)
  have hperm := ((hsort g).symm.trans (heq ▸ hsort h)).map unrender
  rw [hread hg, hread hh] at hperm
  exact (List.map_perm_map_iff (Option.some_injective _)).1 hperm

/-- **A key does not depend on the order of the constraints.** -/
theorem key_eq_of_perm {g h : Guard} (hperm : g.constraints.Perm h.constraints) : g.key = h.key := by
  rw [key, key, sortByUnits_eq_of_perm (hperm.map Constraint.render)]

/-- **Keys tell guards apart up to the order of their constraints.** -/
theorem key_eq_iff_perm {texts texts' : List String} {g h : Guard} (hg : parse texts = .ok g)
    (hh : parse texts' = .ok h) : g.key = h.key ↔ h.constraints.Perm g.constraints :=
  ⟨fun hkey => (perm_of_key_eq (spelled_of_parse hg) (spelled_of_parse hh) hkey).symm,
    fun hperm => key_eq_of_perm hperm.symm⟩

/-- Another order and other blanks give the same key, here of a constraint whose right side holds a second
comparison. -/
theorem key_eq_iff_perm_reordered : ∃ g h : Guard,
    parse ["(x == 1) != 0 && n > 0"] = .ok g ∧ parse ["n>0", "(x==1) != 0"] = .ok h ∧
      g.constraints = [⟨"(x", .eq, "1) != 0"⟩, ⟨"n", .gt, "0"⟩] ∧
      h.constraints = [⟨"n", .gt, "0"⟩, ⟨"(x", .eq, "1) != 0"⟩] ∧ g.key = h.key := by
  have hg : parse ["(x == 1) != 0 && n > 0"] = .ok ⟨[⟨"(x", .eq, "1) != 0"⟩, ⟨"n", .gt, "0"⟩]⟩ := rfl
  have hh : parse ["n>0", "(x==1) != 0"] = .ok ⟨[⟨"n", .gt, "0"⟩, ⟨"(x", .eq, "1) != 0"⟩]⟩ := rfl
  exact ⟨_, _, hg, hh, rfl, rfl, (key_eq_iff_perm hg hh).2 (.swap ..)⟩

end Guard

end RecurrenceCompiler
