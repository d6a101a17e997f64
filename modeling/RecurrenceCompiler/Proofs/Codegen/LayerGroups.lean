import RecurrenceCompiler.Codegen.Layered
import RecurrenceCompiler.Proofs.Codegen.Roles
import RecurrenceCompiler.Proofs.Recurrence.Selection

/-!
# Groups of rules

Gathering puts every rule into the one group with its key (`Gathered`), the rules of a group differ in
their roles, and what `checkGroups` accepts are groups that, pair by pair, are provably disjoint or
come in the order of priority with the earlier one serving every slot (`GroupsAgree`). Base cases
are gathered into one layer for each list of values (`HoldsBases`).
-/

namespace RecurrenceCompiler

open Text Decimal Arith

namespace LayerGroup

variable {g : LayerGroup} {lr : LayerRule}

theorem text_of_find? {t : String} (h : g.find? t = some lr) : lr.role.text = t := by
  simpa using List.find?_some h

theorem zero_of_find? (h : g.find? "zero" = some lr) : lr.role = .zero := by
  have htext := text_of_find? h
  cases hrole : lr.role with
  | zero => rfl
  | max | general => simp [hrole, Role.text] at htext

theorem general_of_find? (h : g.find? "general" = some lr) : ∃ start, lr.role = .general start := by
  have htext := text_of_find? h
  cases hrole : lr.role with
  | general start => exact ⟨start, rfl⟩
  | zero | max => simp [hrole, Role.text] at htext

theorem max_of_find? (h : g.find? "max" = some lr) : ∃ e, lr.role = .max e := by
  have htext := text_of_find? h
  cases hrole : lr.role with
  | max e => exact ⟨e, rfl⟩
  | zero | general => simp [hrole, Role.text] at htext

end LayerGroup

namespace Recurrence

section
variable {r : Recurrence} {aux : String}

/-- Groups hold each of the rules, by the key of its constraints on the layer and with its role. -/
structure Gathered (r : Recurrence) (aux : String) (rules : List Rule) (groups : List LayerGroup) :
    Prop where
  member : ∀ g ∈ groups, ∀ lr ∈ g.rules, lr.rule ∈ rules ∧ r.auxRole lr.rule aux = .ok lr.role ∧
    (lr.rule.guard.onLayer aux).key = g.guard.key
  guard : ∀ g ∈ groups, ∃ ρ ∈ rules, g.guard = ρ.guard.onLayer aux
  covers : ∀ ρ ∈ rules, ∃ g ∈ groups, ∃ lr ∈ g.rules, lr.rule = ρ
  roles : ∀ g ∈ groups, (g.rules.map fun lr => lr.role.text).Nodup
  keys : (groups.map fun g => g.guard.key).Nodup

/-- A rule is added to the first group with its key, or makes a new one at the end. -/
theorem addToGroup_cases (guard : Guard) (lr : LayerRule) (groups : List LayerGroup) :
    ((∀ g ∈ groups, g.guard.key ≠ guard.key) ∧
      addToGroup guard lr groups = groups ++ [⟨guard, [lr], lr.rule.index⟩]) ∨
    ∃ as g bs, groups = as ++ g :: bs ∧ g.guard.key = guard.key ∧
      (∀ h ∈ as, h.guard.key ≠ guard.key) ∧
      addToGroup guard lr groups = as ++ { g with rules := g.rules ++ [lr] } :: bs := by
  induction groups with
  | nil => exact .inl ⟨by simp, rfl⟩
  | cons g gs ih =>
    rw [addToGroup]
    split
    · next h => exact .inr ⟨[], g, gs, rfl, by simpa using h, by simp, rfl⟩
    · next h =>
      have h : g.guard.key ≠ guard.key := by simpa using h
      rcases ih with ⟨hnew, heq⟩ | ⟨as, g', bs, rfl, hkey, has, heq⟩
      · exact .inl ⟨by simpa using ⟨h, hnew⟩, by rw [heq]; rfl⟩
      · exact .inr ⟨g :: as, g', bs, rfl, hkey, by simpa using ⟨h, has⟩, by rw [heq]; rfl⟩

/-- **Adding a rule keeps the groups gathered.** -/
theorem Gathered.add {rules : List Rule} {groups : List LayerGroup} (h : r.Gathered aux rules groups)
    {rule : Rule} {role : Role} (hrole : r.auxRole rule aux = .ok role)
    (hclash : ∀ g ∈ groups, g.guard.key = (rule.guard.onLayer aux).key →
      ∀ lr ∈ g.rules, lr.role.text ≠ role.text) :
    r.Gathered aux (rules ++ [rule]) (addToGroup (rule.guard.onLayer aux) ⟨rule, role⟩ groups) := by
  rcases addToGroup_cases (rule.guard.onLayer aux) ⟨rule, role⟩ groups with
    ⟨hnew, heq⟩ | ⟨as, g, bs, rfl, hkey, has, heq⟩
  · rw [heq]
    constructor
    · intro g hg lr hlr
      rcases List.mem_append.1 hg with hg | hg
      · obtain ⟨hmem, hrest⟩ := h.member g hg lr hlr
        exact ⟨List.mem_append_left _ hmem, hrest⟩
      · obtain rfl := List.mem_singleton.1 hg
        obtain rfl := List.mem_singleton.1 hlr
        exact ⟨by simp, hrole, rfl⟩
    · intro g hg
      rcases List.mem_append.1 hg with hg | hg
      · obtain ⟨ρ, hρ, hguard⟩ := h.guard g hg
        exact ⟨ρ, List.mem_append_left _ hρ, hguard⟩
      · obtain rfl := List.mem_singleton.1 hg
        exact ⟨rule, by simp, rfl⟩
    · intro ρ hρ
      rcases List.mem_append.1 hρ with hρ | hρ
      · obtain ⟨g, hg, hlr⟩ := h.covers ρ hρ
        exact ⟨g, List.mem_append_left _ hg, hlr⟩
      · obtain rfl := List.mem_singleton.1 hρ
        exact ⟨_, List.mem_append_right _ (List.mem_singleton_self _), _,
          List.mem_singleton_self _, rfl⟩
    · intro g hg
      rcases List.mem_append.1 hg with hg | hg
      · exact h.roles g hg
      · obtain rfl := List.mem_singleton.1 hg
        simp
    · rw [List.map_append, List.nodup_append]
      refine ⟨h.keys, by simp, ?_⟩
      rintro _ hk _ hk' rfl
      obtain ⟨g, hg, hgk⟩ := List.mem_map.1 hk
      exact hnew g hg (hgk.trans (by simpa using hk'))
  · rw [heq]
    have hmem {h : LayerGroup} : h ∈ as ++ { g with rules := g.rules ++ [⟨rule, role⟩] } :: bs →
        h ∈ as ++ g :: bs ∨ h = { g with rules := g.rules ++ [⟨rule, role⟩] } := by
      simp only [List.mem_append, List.mem_cons]
      tauto
    have hg : g ∈ as ++ g :: bs := by simp
    constructor
    · intro g' hg' lr hlr
      rcases hmem hg' with hg' | rfl
      · obtain ⟨hmem, hrest⟩ := h.member g' hg' lr hlr
        exact ⟨List.mem_append_left _ hmem, hrest⟩
      · rcases List.mem_append.1 hlr with hlr | hlr
        · obtain ⟨hmem, hrest⟩ := h.member g hg lr hlr
          exact ⟨List.mem_append_left _ hmem, hrest⟩
        · obtain rfl := List.mem_singleton.1 hlr
          exact ⟨by simp, hrole, hkey.symm⟩
    · intro g' hg'
      have hguard : ∃ h ∈ as ++ g :: bs, g'.guard = h.guard := by
        rcases hmem hg' with hg' | rfl
        · exact ⟨g', hg', rfl⟩
        · exact ⟨g, hg, rfl⟩
      obtain ⟨g₀, hg₀, hguard⟩ := hguard
      obtain ⟨ρ, hρ, hρguard⟩ := h.guard g₀ hg₀
      exact ⟨ρ, List.mem_append_left _ hρ, hguard.trans hρguard⟩
    · intro ρ hρ
      rcases List.mem_append.1 hρ with hρ | hρ
      · obtain ⟨g', hg', lr, hlr, hρ⟩ := h.covers ρ hρ
        rcases List.mem_append.1 hg' with hg' | hg'
        · exact ⟨g', by simp [hg'], lr, hlr, hρ⟩
        · rcases List.mem_cons.1 hg' with rfl | hg'
          · exact ⟨_, List.mem_append_right _ (List.mem_cons_self ..), lr,
              List.mem_append_left _ hlr, hρ⟩
          · exact ⟨g', by simp [hg'], lr, hlr, hρ⟩
      · obtain rfl := List.mem_singleton.1 hρ
        exact ⟨_, List.mem_append_right _ (List.mem_cons_self ..), ⟨_, role⟩, by simp, rfl⟩
    · intro g' hg'
      rcases hmem hg' with hg' | rfl
      · exact h.roles g' hg'
      · rw [List.map_append, List.nodup_append]
        refine ⟨h.roles g hg, by simp, ?_⟩
        rintro _ ht _ ht' rfl
        obtain ⟨lr, hlr, hlrt⟩ := List.mem_map.1 ht
        exact hclash g hg hkey lr hlr (hlrt.trans (by simpa using ht'))
    · simpa using h.keys

/-- **Gathering rules keeps the groups gathered.** -/
theorem Gathered.gatherGroups {rules : List Rule} : ∀ {before : List Rule}
    {groups groups' : List LayerGroup}, r.Gathered aux before groups →
    r.gatherGroups aux groups rules = .ok groups' → r.Gathered aux (before ++ rules) groups' := by
  induction rules with
  | nil =>
    intro before groups groups' h heq
    cases heq
    rwa [List.append_nil]
  | cons rule rules ih =>
    intro before groups groups' h heq
    obtain ⟨role, hrole, heq⟩ := bind_ok heq
    dsimp only at heq
    split at heq
    · cases heq
    · next hfind =>
      have hclash : ∀ g ∈ groups, g.guard.key = (rule.guard.onLayer aux).key →
          ∀ lr ∈ g.rules, lr.role.text ≠ role.text := by
        intro g hg hkey
        -- Keys are distinct, so the group that is found is this one.
        have hsome : (groups.find? fun g => g.guard.key == (rule.guard.onLayer aux).key).isSome :=
          List.find?_isSome.2 ⟨g, hg, by simpa using hkey⟩
        obtain ⟨g', hg'⟩ := Option.isSome_iff_exists.1 hsome
        have hkey' : g'.guard.key = (rule.guard.onLayer aux).key := by
          simpa using List.find?_some hg'
        obtain rfl := List.inj_on_of_nodup_map h.keys (List.mem_of_find?_eq_some hg') hg
          (hkey'.trans hkey.symm)
        rw [hg'] at hfind
        simpa using hfind
      have hnext := ih (h.add hrole hclash) heq
      rwa [List.append_assoc] at hnext

/-- No groups hold no rules. -/
theorem gathered_nil : r.Gathered aux [] [] where
  member := by simp
  guard := by simp
  covers := by simp
  roles := by simp
  keys := by simp

/-- The order of groups does not matter. -/
theorem Gathered.perm {rules : List Rule} {groups groups' : List LayerGroup}
    (h : r.Gathered aux rules groups) (hperm : groups'.Perm groups) : r.Gathered aux rules groups' where
  member g hg := h.member g (hperm.mem_iff.1 hg)
  guard g hg := h.guard g (hperm.mem_iff.1 hg)
  covers ρ hρ := by
    obtain ⟨g, hg, hlr⟩ := h.covers ρ hρ
    exact ⟨g, hperm.mem_iff.2 hg, hlr⟩
  roles g hg := h.roles g (hperm.mem_iff.1 hg)
  keys := (hperm.map _).nodup_iff.2 h.keys

/-! ## Groups that agree with the priority of rules -/

/-- Two groups in the order in which they are tried: no layer is in both, or the earlier one comes
before the later one rule by rule and serves every slot. -/
def GroupsAgree (r : Recurrence) (earlier later : LayerGroup) : Prop :=
  earlier.guard.provablyDisjoint later.guard = true ∨
    r.outranks earlier later = true ∧ earlier.coversAux = true

theorem checkAgainst_ok {earlier : LayerGroup} {groups : List LayerGroup}
    (h : r.checkAgainst earlier groups = .ok ()) : ∀ g ∈ groups, r.GroupsAgree earlier g := by
  induction groups with
  | nil => simp
  | cons g groups ih =>
    rw [checkAgainst] at h
    split at h
    · next hdis => exact List.forall_mem_cons.2 ⟨.inl hdis, ih h⟩
    · split at h
      · cases h
      · next hrank =>
        split at h
        · cases h
        · next hcover =>
          exact List.forall_mem_cons.2 ⟨.inr ⟨by simpa using hrank, by simpa using hcover⟩, ih h⟩

/-- **Groups that are accepted agree, pair by pair.** -/
theorem checkGroups_ok {groups : List LayerGroup} (h : r.checkGroups groups = .ok ()) :
    groups.Pairwise r.GroupsAgree := by
  induction groups with
  | nil => exact .nil
  | cons g groups ih =>
    obtain ⟨⟨⟩, hg, h⟩ := bind_ok h
    exact .cons (checkAgainst_ok hg) (ih h)

end

/-! ## Base layers -/

section
variable {r : Recurrence} {layerIndices : List String}

/-- Whether a base case belongs to the layer with some values. -/
def inLayer (r : Recurrence) (layerIndices : List String) (values : List Whole) (b : BaseCase) : Bool :=
  (r.layerOf b layerIndices).toOption.any fun vs => vs.map Whole.toInt == values.map Whole.toInt

theorem inLayer_eq {b : BaseCase} {vs values : List Whole} (h : r.layerOf b layerIndices = .ok vs) :
    r.inLayer layerIndices values b = (vs.map Whole.toInt == values.map Whole.toInt) := by
  rw [inLayer, h]
  rfl

/-- Layers hold some base cases: there is one for each list of values, with the base cases that have these
values in their order. -/
structure HoldsBases (r : Recurrence) (layerIndices : List String) (bases : List (Nat × BaseCase))
    (layers : List BaseLayer) : Prop where
  distinct : (layers.map fun l => l.values.map Whole.toInt).Nodup
  gathered : ∀ l ∈ layers, l.bases = bases.filter fun b => r.inLayer layerIndices l.values b.2
  values : ∀ l ∈ layers, ∃ b ∈ bases, r.layerOf b.2 layerIndices = .ok l.values
  covers : ∀ b ∈ bases, ∃ values, r.layerOf b.2 layerIndices = .ok values ∧
    ∃ l ∈ layers, l.values.map Whole.toInt = values.map Whole.toInt

theorem holdsBases_nil : r.HoldsBases layerIndices [] [] where
  distinct := List.nodup_nil
  gathered := by simp
  values := by simp
  covers := by simp

/-- A base case joins the first layer with its values, or makes a new one at the end. -/
theorem addToLayer_cases (values : List Whole) (b : Nat × BaseCase) (layers : List BaseLayer) :
    ((∀ l ∈ layers, l.values.map Whole.toInt ≠ values.map Whole.toInt) ∧
      addToLayer values b layers = layers ++ [⟨values, [b], 0⟩]) ∨
    ∃ as l cs, layers = as ++ l :: cs ∧ l.values.map Whole.toInt = values.map Whole.toInt ∧
      addToLayer values b layers = as ++ { l with bases := l.bases ++ [b] } :: cs := by
  induction layers with
  | nil => exact .inl ⟨by simp, rfl⟩
  | cons l layers ih =>
    rw [addToLayer]
    split
    · next h => exact .inr ⟨[], l, layers, rfl, by simpa using h, rfl⟩
    · next h =>
      have hne : l.values.map Whole.toInt ≠ values.map Whole.toInt := by simpa using h
      rcases ih with ⟨hall, heq⟩ | ⟨as, m, cs, rfl, hm, heq⟩
      · exact .inl ⟨List.forall_mem_cons.2 ⟨hne, hall⟩, congrArg (l :: ·) heq⟩
      · exact .inr ⟨l :: as, m, cs, rfl, hm, congrArg (l :: ·) heq⟩

/-- **Adding a base case to the layers.** -/
theorem HoldsBases.add {bases : List (Nat × BaseCase)} {layers : List BaseLayer}
    (h : r.HoldsBases layerIndices bases layers) {b : Nat × BaseCase} {values : List Whole}
    (hb : r.layerOf b.2 layerIndices = .ok values) :
    r.HoldsBases layerIndices (bases ++ [b]) (addToLayer values b layers) := by
  have hkept {vs : List Whole} (hne : vs.map Whole.toInt ≠ values.map Whole.toInt) :
      (bases ++ [b]).filter (fun b => r.inLayer layerIndices vs b.2) =
        bases.filter fun b => r.inLayer layerIndices vs b.2 := by
    rw [List.filter_append, List.filter_singleton, inLayer_eq hb, beq_eq_false_iff_ne.2 hne.symm]
    exact List.append_nil _
  have hjoined {vs : List Whole} (heq : vs.map Whole.toInt = values.map Whole.toInt) :
      (bases ++ [b]).filter (fun b => r.inLayer layerIndices vs b.2) =
        bases.filter (fun b => r.inLayer layerIndices vs b.2) ++ [b] := by
    rw [List.filter_append, List.filter_singleton, inLayer_eq hb, beq_iff_eq.2 heq.symm]
    rfl
  rcases addToLayer_cases values b layers with ⟨hne, heq⟩ | ⟨as, l, cs, rfl, hl, heq⟩
  · rw [heq]
    refine ⟨?_, ?_, ?_, ?_⟩
    · rw [List.map_append, List.map_singleton, List.nodup_append]
      refine ⟨h.distinct, List.nodup_singleton _, ?_⟩
      rintro _ hmem _ hlast rfl
      obtain ⟨l, hl, hkey⟩ := List.mem_map.1 hmem
      exact hne l hl (hkey.trans (List.mem_singleton.1 hlast))
    · rw [List.forall_mem_append, List.forall_mem_singleton]
      refine ⟨fun l hl => (h.gathered l hl).trans (hkept (hne l hl)).symm, ?_⟩
      -- None of the base cases before has these values, since there is no layer for them.
      have hnone : bases.filter (fun b => r.inLayer layerIndices values b.2) = [] := by
        rw [List.filter_eq_nil_iff]
        intro c hc hin
        obtain ⟨vs, hvs, l, hl, hkey⟩ := h.covers c hc
        rw [inLayer_eq hvs, beq_iff_eq] at hin
        exact hne l hl (hkey.trans hin)
      dsimp only
      rw [hjoined rfl, hnone, List.nil_append]
    · rw [List.forall_mem_append, List.forall_mem_singleton]
      refine ⟨fun l hl => ?_, b, by simp, hb⟩
      obtain ⟨c, hc, hvalues⟩ := h.values l hl
      exact ⟨c, List.mem_append_left _ hc, hvalues⟩
    · rw [List.forall_mem_append, List.forall_mem_singleton]
      refine ⟨fun c hc => ?_, values, hb, ⟨values, [b], 0⟩, by simp, rfl⟩
      obtain ⟨vs, hvs, l, hl, hkey⟩ := h.covers c hc
      exact ⟨vs, hvs, l, List.mem_append_left _ hl, hkey⟩
  · have hmem : l ∈ as ++ l :: cs := by simp
    have hother : ∀ m, m ∈ as ∨ m ∈ cs → m.values.map Whole.toInt ≠ values.map Whole.toInt := by
      have hnodup := h.distinct
      rw [List.map_append, List.map_cons, List.nodup_append, List.nodup_cons] at hnodup
      rintro m (hm | hm) hkey
      · exact hnodup.2.2 _ (List.mem_map_of_mem hm) _ List.mem_cons_self (hkey.trans hl.symm)
      · exact hnodup.2.1.1 (List.mem_map.2 ⟨m, hm, hkey.trans hl.symm⟩)
    rw [heq]
    refine ⟨?_, ?_, ?_, ?_⟩
    · simpa using h.distinct
    · rw [List.forall_mem_append, List.forall_mem_cons]
      refine ⟨fun m hm => ?_, ?_, fun m hm => ?_⟩
      · exact (h.gathered m (by simp [hm])).trans (hkept (hother m (.inl hm))).symm
      · dsimp only
        rw [hjoined hl, h.gathered l hmem]
      · exact (h.gathered m (by simp [hm])).trans (hkept (hother m (.inr hm))).symm
    · have hvalues : ∀ m ∈ as ++ l :: cs, ∃ c ∈ bases ++ [b],
          r.layerOf c.2 layerIndices = .ok m.values := by
        intro m hm
        obtain ⟨c, hc, hvalues⟩ := h.values m hm
        exact ⟨c, List.mem_append_left _ hc, hvalues⟩
      rw [List.forall_mem_append, List.forall_mem_cons] at hvalues ⊢
      exact hvalues
    · have hlayer {vs : List Whole} (hm : ∃ m ∈ as ++ l :: cs, m.values.map Whole.toInt = vs.map Whole.toInt) :
          ∃ m ∈ as ++ { l with bases := l.bases ++ [b] } :: cs,
            m.values.map Whole.toInt = vs.map Whole.toInt := by
        simpa [or_and_right, exists_or] using hm
      rw [List.forall_mem_append, List.forall_mem_singleton]
      refine ⟨fun c hc => ?_, values, hb, hlayer ⟨l, hmem, hl⟩⟩
      obtain ⟨vs, hvs, hm⟩ := h.covers c hc
      exact ⟨vs, hvs, hlayer hm⟩

/-- **Gathering keeps the base cases.** -/
theorem HoldsBases.gatherLayers {rest : List (Nat × BaseCase)} : ∀ {bases : List (Nat × BaseCase)}
    {layers layers' : List BaseLayer}, r.HoldsBases layerIndices bases layers →
    r.gatherLayers layerIndices layers rest = .ok layers' →
    r.HoldsBases layerIndices (bases ++ rest) layers' := by
  induction rest with
  | nil =>
    intro bases layers layers' h hgather
    cases hgather
    rwa [List.append_nil]
  | cons b rest ih =>
    intro bases layers layers' h hgather
    obtain ⟨values, hvalues, hgather⟩ := bind_ok hgather
    rw [← List.singleton_append, ← List.append_assoc]
    exact ih (h.add hvalues) hgather

/-- Layers that differ in their sizes only. -/
theorem HoldsBases.of_sizes {bases : List (Nat × BaseCase)} {layers layers' : List BaseLayer}
    (h : r.HoldsBases layerIndices bases layers)
    (hsizes : List.Forall₂ (fun l l' => l'.values = l.values ∧ l'.bases = l.bases) layers layers') :
    r.HoldsBases layerIndices bases layers' := by
  have hkeys : layers'.map (·.values) = layers.map (·.values) := by
    clear h
    induction hsizes with
    | nil => rfl
    | cons hl _ ih => rw [List.map_cons, List.map_cons, hl.1, ih]
  have hmap : ∀ ls : List BaseLayer, ls.map (fun l => l.values.map Whole.toInt) =
      (ls.map (·.values)).map (·.map Whole.toInt) := fun ls => by rw [List.map_map]; rfl
  refine ⟨?_, fun l' hl' => ?_, fun l' hl' => ?_, fun b hb => ?_⟩
  · rw [hmap, hkeys, ← hmap]
    exact h.distinct
  · obtain ⟨l, hl, hvalues, hbases⟩ := exists_of_forall₂ hsizes hl'
    rw [hvalues, hbases]
    exact h.gathered l hl
  · obtain ⟨l, hl, hvalues, -⟩ := exists_of_forall₂ hsizes hl'
    rw [hvalues]
    exact h.values l hl
  · obtain ⟨vs, hvs, l, hl, hkey⟩ := h.covers b hb
    have hmem : l.values ∈ layers'.map (·.values) := hkeys ▸ List.mem_map_of_mem hl
    obtain ⟨l', hl', hvalues⟩ := List.mem_map.1 hmem
    exact ⟨vs, hvs, l', hl', hvalues ▸ hkey⟩

/-- Base cases with their places. -/
def placedBases (r : Recurrence) : List (Nat × BaseCase) :=
  r.bases.zipIdx.map fun (b, i) => (i, b)

theorem mem_placedBases {p : Nat × BaseCase} : p ∈ r.placedBases ↔ r.bases[p.1]? = some p.2 := by
  obtain ⟨i, b⟩ := p
  rw [placedBases, List.mem_map]
  constructor
  · rintro ⟨⟨b, i⟩, hmem, heq⟩
    cases heq
    exact List.mk_mem_zipIdx_iff_getElem?.1 hmem
  · exact fun h => ⟨(b, i), List.mk_mem_zipIdx_iff_getElem?.2 h, rfl⟩

/-- Layers keep their base cases when they are given their sizes. -/
theorem HoldsBases.sized {size : BaseLayer → Except Error Int} {layers layers' : List BaseLayer}
    (hsizes : (layers.mapM fun l => do
      let size ← size l
      pure { l with size }) = .ok layers') {bases : List (Nat × BaseCase)}
    (h : r.HoldsBases layerIndices bases layers) : r.HoldsBases layerIndices bases layers' := by
  refine h.of_sizes ((forall₂_of_mapM hsizes).imp fun l l' hl => ?_)
  obtain ⟨size, -, hl⟩ := bind_ok hl
  cases hl
  exact ⟨rfl, rfl⟩

end

/-- The layer of a base case is bound in its slots. -/
theorem mem_zip_of_layerOf {r : Recurrence} {b : BaseCase} {layerIndices : List String}
    {values : List Whole} (h : r.layerOf b layerIndices = .ok values) :
    ∀ p ∈ layerIndices.zip values, b.slots[r.indices.idxOf p.1]?.join = some p.2 := by
  induction layerIndices generalizing values with
  | nil =>
    cases h
    simp
  | cons i is ih =>
    rw [layerOf] at h
    split at h
    · cases h
    · next v hv =>
      obtain ⟨vs, hvs, h⟩ := bind_ok h
      cases h
      have hzip := ih hvs
      simpa using ⟨hv, fun a b hab => hzip (a, b) hab⟩

/-! ## Plans -/

/-- What the plan of a recurrence is made of. -/
structure Planned (r : Recurrence) (padding : Amount) (plan : LayerPlan) : Prop where
  aux : r.auxIndex = some plan.aux
  layerIndices : plan.layerIndices = r.indices.filter (· != plan.aux)
  layers : plan.layerIndices ≠ []
  bound : r.layerBound plan.aux plan.layerIndices padding = .ok plan.bound
  bases : ∀ b ∈ r.bases, ∃ values, r.layerOf b plan.layerIndices = .ok values ∧
    ∃ l ∈ plan.baseLayers, l.values.map Whole.toInt = values.map Whole.toInt
  gathered : r.Gathered plan.aux r.sortedRules plan.groups
  agree : plan.groups.Pairwise r.GroupsAgree

/-- **A plan is made of gathered groups that agree and of the layers of the base cases.** -/
theorem planned_of_planLayersIn {α : Type} [Carrier α] {r : Recurrence} {padding : Amount}
    {plan : LayerPlan} (h : r.planLayersIn α padding = .ok plan) : r.Planned padding plan := by
  unfold planLayersIn at h
  split at h
  · cases h
  · next aux haux =>
    obtain ⟨auxSlot, -, h⟩ := bind_ok h
    dsimp only at h
    split at h
    · cases h
    · next hlayers =>
      obtain ⟨bound, hbound, h⟩ := bind_ok h
      obtain ⟨unsized, hunsized, h⟩ := bind_ok h
      obtain ⟨baseLayers, hbases, h⟩ := bind_ok h
      obtain ⟨groups, hgroups, h⟩ := bind_ok h
      obtain ⟨⟨⟩, hcheck, h⟩ := bind_ok h
      cases h
      have hlayered : r.HoldsBases (r.indices.filter (· != aux)) r.placedBases baseLayers :=
        (holdsBases_nil.gatherLayers hunsized).sized hbases
      refine ⟨haux, rfl, by simpa using hlayers, hbound, fun b hb => ?_,
        (gathered_nil.gatherGroups hgroups).perm (sortBy_perm _ _), checkGroups_ok hcheck⟩
      obtain ⟨k, hk⟩ := List.getElem?_of_mem hb
      exact hlayered.covers (k, b) (mem_placedBases.2 hk)

/-- **A base case that matches belongs to a base layer whose guard holds.** -/
theorem Planned.baseLayer_of_matches {r : Recurrence} {padding : Amount} {plan : LayerPlan}
    (hplan : r.Planned padding plan) (hr : r.WellFormed) {α : Type} [Carrier α] {env : Env α}
    {b : BaseCase} (hb : b ∈ r.bases) (hmatch : r.matchesBase env b = .ok true) :
    ∃ l ∈ plan.baseLayers, (BaseLayer.guard plan.layerIndices l).holds env = .ok true := by
  obtain ⟨values, hvalues, l, hl, heq⟩ := hplan.bases b hb
  have hslots := mem_zip_of_layerOf hvalues
  -- Matching is comparing every bound slot, those of the layer indices among them.
  rw [matchesBase_eq (hr.slots b hb), Guard.holds_eq_true_iff] at hmatch
  refine ⟨l, hl, Guard.holds_eq_true_iff.2 fun c hc => ?_⟩
  obtain ⟨⟨i, v⟩, hiv, rfl⟩ := List.mem_map.1 hc
  obtain ⟨w, hw, hvw⟩ : ∃ w, (i, w) ∈ plan.layerIndices.zip values ∧ w.toInt = v.toInt := by
    have hmem : (i, v.toInt) ∈ plan.layerIndices.zip (values.map Whole.toInt) := by
      rw [← heq, List.zip_map_right]
      exact List.mem_map.2 ⟨(i, v), hiv, rfl⟩
    rw [List.zip_map_right] at hmem
    obtain ⟨⟨j, w⟩, hjw, heq⟩ := List.mem_map.1 hmem
    obtain ⟨rfl, hw⟩ : j = i ∧ w.toInt = v.toInt := by simpa using heq
    exact ⟨w, hjw, hw⟩
  have hi : i ∈ r.indices := by
    have hmem := (List.of_mem_zip hw).1
    rw [hplan.layerIndices] at hmem
    exact List.mem_of_mem_filter hmem
  have hidx : r.indices[r.indices.idxOf i]? = some i := by
    rw [List.getElem?_eq_getElem (List.idxOf_lt_length_of_mem hi), List.getElem_idxOf]
  change (Constraint.equals i v.toInt).holds env = .ok true
  rw [← hvw]
  exact hmatch _ ((mem_slotEqualities_iff (hr.slots b hb)).2
    ⟨_, i, w, hidx, Option.join_eq_some_iff.1 (hslots (i, w) hw), rfl⟩)

end Recurrence

end RecurrenceCompiler
