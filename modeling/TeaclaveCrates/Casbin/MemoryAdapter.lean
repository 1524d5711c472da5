import TeaclaveCrates.Casbin.Model

namespace TeaclaveCrates.Casbin

open Lib

/-!
# The in-memory adapter

`adapter/memory_adapter.rs` stores a rule as one line `sec :: ptype :: rule`. The four operations
that read lines back each strip the two leading fields with index arithmetic of their own.

* `Filter`, `MemoryAdapter` — the data, with the two leading fields of every line as an invariant.
* `loadPolicy`, `loadFilteredPolicy`, `savePolicy`, `addPolicy`, … — the operations.
* `mem_rules_loadPolicy`, `foldlM_loadFilteredLine` — the rules that a load puts into a model.
* `load_restores_iff` — when saving and loading again gives the same rules.
-/

/-- The filter of a filtered load: values for the fields of policies and of groupings. -/
structure Filter where
  p : List String
  g : List String

/-- The values of a filter for one section. -/
def Filter.values (f : Filter) (sec : String) : List String :=
  if sec = "p" then f.p else if sec = "g" then f.g else []

/-- The stored lines, each with its section and its type in front. -/
structure MemoryAdapter where
  policy : LinkedSet (List String)
  isFiltered : Bool
  two_le : ∀ line ∈ policy, 2 ≤ line.length

namespace MemoryAdapter

/-- `MemoryAdapter::default()` -/
def default : MemoryAdapter where
  policy := LinkedSet.empty
  isFiltered := false
  two_le := fun line h => absurd h (LinkedSet.not_mem_empty line)

/-! ### Loading -/

/-- One round of the loop of `load_policy`. The rule that is inserted is `line[1..]`. -/
def loadLine (m : DefaultModel) (line : List String) : DefaultModel :=
  match line with
  | sec :: ptype :: _ =>
    let rule := line.drop 1
    m.modifyPolicy sec ptype (·.insert rule)
  | _ => m -- no line is that short

/-- All rules, into the model. -/
def loadPolicy (a : MemoryAdapter) (m : DefaultModel) : DefaultModel :=
  a.policy.toList.foldl loadLine m

/-- The inner loop of `load_filtered_policy`: does some non-empty filter value differ from
    `rule[i + 1]`? There is no `break`, so every position of a non-empty value is indexed. -/
def differs (rule : Rule) : Nat → List String → Option Bool
  | _, [] => some false
  | i, r :: rest =>
    if r.isEmpty then differs rule (i + 1) rest
    else
      match rule[i + 1]?, differs rule (i + 1) rest with
      | some field, some d => some (decide (r ≠ field) || d)
      | _, _ => none

/-- One round of the loop of `load_filtered_policy`, on the model and the `is_filtered` flag. -/
def loadFilteredLine (f : Filter) (st : DefaultModel × Bool) (line : List String) :
    Option (DefaultModel × Bool) :=
  match line with
  | sec :: ptype :: _ =>
    let rule := line.drop 1
    let isFiltered :=
      if sec = "p" then differs rule 0 f.p
      else if sec = "g" then differs rule 0 f.g
      else some false
    match isFiltered with
    | none => none
    | some true => some (st.1, true)
    | some false => some (st.1.modifyPolicy sec ptype (·.insert rule), st.2)
  | _ => none

/-- The rules that pass the filter; `none` is a panic. -/
def loadFilteredPolicy (a : MemoryAdapter) (m : DefaultModel) (f : Filter) :
    Option (DefaultModel × MemoryAdapter) :=
  (a.policy.toList.foldlM (loadFilteredLine f) (m, a.isFiltered)).map fun st =>
    (st.1, { a with isFiltered := st.2 })

/-! ### Storing -/

/-- The line of a rule: `rule.insert(0, ptype)` and then `rule.insert(0, sec)`. -/
def line (sec ptype : String) (rule : Rule) : List String := sec :: ptype :: rule

/-- Put a list of lines in, keeping the invariant. -/
def extendLines (a : MemoryAdapter) (sec ptype : String) (rs : List Rule) : MemoryAdapter where
  policy := a.policy.extend (rs.map (line sec ptype))
  isFiltered := a.isFiltered
  two_le := by
    intro l hl
    rw [LinkedSet.mem_extend, List.mem_map] at hl
    rcases hl with ⟨r, -, rfl⟩ | hl
    · simp [line]
    · exact a.two_le l hl

/-- Keep some of the lines, keeping the invariant. -/
def restrict (a : MemoryAdapter) (s : LinkedSet (List String)) (h : ∀ l ∈ s, l ∈ a.policy) :
    MemoryAdapter where
  policy := s
  isFiltered := a.isFiltered
  two_le := fun l hl => a.two_le l (h l hl)

/-- The loop of `save_policy` over one section: the section of a line is the first character of
    the type, and a type without characters is skipped. -/
def saveSection (m : DefaultModel) (sec : String) (a : MemoryAdapter) : MemoryAdapter :=
  match m.model sec with
  | none => a
  | some asts =>
    asts.entries.foldl
      (fun a e =>
        match e.1.toList.head? with
        | some c => a.extendLines c.toString e.1 e.2.policy.toList
        | none => a) a

/-- The rules of the model in place of the stored ones. -/
def savePolicy (a : MemoryAdapter) (m : DefaultModel) : MemoryAdapter :=
  saveSection m "g" (saveSection m "p" { default with isFiltered := a.isFiltered })

/-- Store a rule; was it new? -/
def addPolicy (a : MemoryAdapter) (sec ptype : String) (rule : Rule) : MemoryAdapter × Bool :=
  (a.extendLines sec ptype [rule], !a.policy.contains (line sec ptype rule))

/-- All of the rules, or none if one is stored. -/
def addPolicies (a : MemoryAdapter) (sec ptype : String) (rs : List Rule) :
    MemoryAdapter × Bool :=
  if rs.any fun r => a.policy.contains (line sec ptype r) then (a, false)
  else (a.extendLines sec ptype rs, true)

/-- Remove a rule; was it there? -/
def removePolicy (a : MemoryAdapter) (sec ptype : String) (rule : Rule) : MemoryAdapter × Bool :=
  (a.restrict (a.policy.remove (line sec ptype rule)) (fun l hl => by simp at hl; exact hl.2),
    a.policy.contains (line sec ptype rule))

/-- All of the rules, or none if one is missing. -/
def removePolicies (a : MemoryAdapter) (sec ptype : String) (rs : List Rule) :
    MemoryAdapter × Bool :=
  if rs.all fun r => a.policy.contains (line sec ptype r) then
    (a.restrict (a.policy.removeAll (rs.map (line sec ptype)))
      (fun l hl => by rw [LinkedSet.mem_removeAll] at hl; exact hl.2), true)
  else (a, false)

/-- The lines that `remove_filtered_policy` takes out: those of the section and type whose fields
    match, with the fields counted from index two. -/
def filteredLines (a : MemoryAdapter) (sec ptype : String) (fieldIndex : Nat)
    (fieldValues : List String) : Option (List (List String)) :=
  a.policy.toList.filterM fun l =>
    if l[0]? = some sec ∧ l[1]? = some ptype then
      DefaultModel.matchFields l (fieldIndex + 2) fieldValues
    else some false

/-- Remove the rules that have the given fields. -/
def removeFilteredPolicy (a : MemoryAdapter) (sec ptype : String) (fieldIndex : Nat)
    (fieldValues : List String) : Option (MemoryAdapter × Bool) :=
  if fieldValues.isEmpty then some (a, false)
  else
    (a.filteredLines sec ptype fieldIndex fieldValues).map fun ls =>
      (a.restrict (a.policy.removeAll ls)
        (fun l hl => by rw [LinkedSet.mem_removeAll] at hl; exact hl.2), !ls.isEmpty)

/-- No rules. -/
def clearPolicy (_a : MemoryAdapter) : MemoryAdapter := default

/-! ### What a load puts into a model -/

variable {m : DefaultModel} {s t : String} {r : Rule}

theorem mem_rules_loadLine (m : DefaultModel) (l : List String) :
    r ∈ (loadLine m l).rules s t ↔
      r ∈ m.rules s t ∨ (m.assertion s t).isSome ∧ ∃ rest, l = line s t rest ∧ r = t :: rest := by
  match l with
  | [] => simp [loadLine, line]
  | [x] => simp [loadLine, line]
  | sec :: ptype :: rest =>
    show r ∈ (m.modifyPolicy sec ptype (·.insert (ptype :: rest))).rules s t ↔ _
    rw [DefaultModel.rules_modifyPolicy]
    by_cases h : s = sec ∧ t = ptype ∧ (m.assertion sec ptype).isSome
    · obtain ⟨rfl, rfl, hsome⟩ := h
      simp only [hsome, and_self, if_true, LinkedSet.mem_insert, true_and, line]
      constructor
      · rintro (h | h)
        · exact Or.inr ⟨rest, rfl, h⟩
        · exact Or.inl h
      · rintro (h | ⟨rest', hl, hr⟩)
        · exact Or.inr h
        · simp only [List.cons.injEq, true_and] at hl
          exact Or.inl (hl ▸ hr)
    · rw [if_neg h]
      refine ⟨Or.inl, ?_⟩
      rintro (hr | ⟨hsome, rest', hl, -⟩)
      · exact hr
      · simp only [line, List.cons.injEq] at hl
        exact absurd ⟨hl.1.symm, hl.2.1.symm, hl.1 ▸ hl.2.1 ▸ hsome⟩ h

theorem isSome_assertion_loadLine (m : DefaultModel) (l : List String) (s t : String) :
    ((loadLine m l).assertion s t).isSome = (m.assertion s t).isSome := by
  match l with
  | [] => rfl
  | [x] => rfl
  | sec :: ptype :: rest =>
    exact DefaultModel.isSome_assertion_modifyPolicy m sec ptype (·.insert (ptype :: rest)) s t

/-- Loading inserts, for every stored line of a defined type, the type followed by the fields. -/
theorem mem_rules_loadPolicy (ls : List (List String)) (m : DefaultModel) :
    r ∈ (ls.foldl loadLine m).rules s t ↔
      r ∈ m.rules s t ∨
        (m.assertion s t).isSome ∧ ∃ rest, line s t rest ∈ ls ∧ r = t :: rest := by
  induction ls generalizing m with
  | nil => simp
  | cons l ls ih =>
    rw [List.foldl_cons, ih, mem_rules_loadLine, isSome_assertion_loadLine]
    constructor
    · rintro ((h | ⟨hs, rest, hl, hr⟩) | ⟨hs, rest, hl, hr⟩)
      · exact Or.inl h
      · exact Or.inr ⟨hs, rest, hl ▸ List.mem_cons_self, hr⟩
      · exact Or.inr ⟨hs, rest, List.mem_cons_of_mem l hl, hr⟩
    · rintro (h | ⟨hs, rest, hl, hr⟩)
      · exact Or.inl (Or.inl h)
      · rcases List.mem_cons.mp hl with hl | hl
        · exact Or.inl (Or.inr ⟨hs, rest, hl.symm, hr⟩)
        · exact Or.inr ⟨hs, rest, hl, hr⟩

/-! ### What a filtered load puts into a model -/

/-- A rule has every non-empty filter value at its position. -/
def Matches (values : List String) (rule : Rule) : Prop :=
  ∀ (i : Nat) (v : String), values[i]? = some v → v ≠ "" → rule[i]? = some v

/-- A rule has a field at the position of every non-empty filter value. -/
def Fits (values : List String) (rule : Rule) : Prop :=
  ∀ (i : Nat) (v : String), values[i]? = some v → v ≠ "" → i < rule.length

/-- A statement about every position of a non-empty list, split off its first position. -/
private theorem forall_getElem?_cons {P : Nat → String → Prop} (w : String) (ws : List String) :
    (∀ (i : Nat) (v : String), (w :: ws)[i]? = some v → P i v) ↔
      P 0 w ∧ ∀ (i : Nat) (v : String), ws[i]? = some v → P (i + 1) v := by
  constructor
  · intro h
    exact ⟨h 0 w rfl, fun i v hv => h (i + 1) v hv⟩
  · rintro ⟨h0, hs⟩ i v hv
    cases i with
    | zero => exact Option.some.inj hv ▸ h0
    | succ i => exact hs i v hv

/-- The comparison does not panic when the rule has a field at each position it looks at. -/
theorem differs_isSome_iff (t : String) (rest : Rule) (k : Nat) (values : List String) :
    (differs (t :: rest) k values).isSome ↔
      ∀ (i : Nat) (v : String), values[i]? = some v → v ≠ "" → k + i < rest.length := by
  induction values generalizing k with
  | nil => simp [differs]
  | cons w ws ih =>
    have hnext := ih (k + 1)
    simp only [Nat.add_assoc, Nat.add_comm 1] at hnext
    rw [forall_getElem?_cons, ← hnext]
    by_cases hw : w = ""
    · simp [differs, hw]
    · have hw' : w.isEmpty = false := by simpa using hw
      rw [differs, hw']
      by_cases hk : k < rest.length
      · cases hd : differs (t :: rest) (k + 1) ws <;> simp [hk, hw]
      · simp [hk, hw]

/-- It finds no difference when every value stands at its position behind the type. -/
theorem differs_eq_false_iff (t : String) (rest : Rule) (k : Nat) (values : List String) :
    differs (t :: rest) k values = some false ↔
      ∀ (i : Nat) (v : String), values[i]? = some v → v ≠ "" → rest[k + i]? = some v := by
  induction values generalizing k with
  | nil => simp [differs]
  | cons w ws ih =>
    have hnext := ih (k + 1)
    simp only [Nat.add_assoc, Nat.add_comm 1] at hnext
    rw [forall_getElem?_cons, ← hnext]
    by_cases hw : w = ""
    · simp [differs, hw]
    · have hw' : w.isEmpty = false := by simpa using hw
      rw [differs, hw']
      cases hf : rest[k]? with
      | none => simp [hf, hw]
      | some field =>
        cases hd : differs (t :: rest) (k + 1) ws with
        | none => simp [hf, hw]
        | some d => simp [hf, hw, @eq_comm _ w field]

/-- Whether a filtered load skips a line of the sections `"p"` and `"g"`; `none` is a panic. -/
def skips (f : Filter) (l : List String) : Option Bool :=
  match l with
  | sec :: ptype :: rest => differs (ptype :: rest) 0 (f.values sec)
  | _ => none

variable (f : Filter)

theorem loadFilteredLine_eq (st : DefaultModel × Bool) (l : List String) :
    loadFilteredLine f st l =
      (skips f l).map fun b => if b then (st.1, true) else (loadLine st.1 l, st.2) := by
  match l with
  | [] => rfl
  | [x] => rfl
  | sec :: ptype :: rest =>
    have hval : (if sec = "p" then differs (ptype :: rest) 0 f.p
        else if sec = "g" then differs (ptype :: rest) 0 f.g else some false) =
        differs (ptype :: rest) 0 (f.values sec) := by
      unfold Filter.values
      split
      · rfl
      · split
        · rfl
        · rfl
    simp only [loadFilteredLine, List.drop_succ_cons, List.drop_zero, hval, skips, loadLine]
    rcases differs (ptype :: rest) 0 (f.values sec) with _ | _ | _ <;> rfl

/-- A filtered load returns when no line makes it panic. -/
theorem isSome_foldlM_loadFilteredLine (ls : List (List String)) (st : DefaultModel × Bool) :
    (ls.foldlM (loadFilteredLine f) st).isSome ↔ ∀ l ∈ ls, (skips f l).isSome := by
  induction ls generalizing st with
  | nil => simp
  | cons l ls ih =>
    rw [List.foldlM_cons, loadFilteredLine_eq]
    cases h : skips f l with
    | none => simp [h]
    | some b => simp [h, ih]

/-- A filtered load that returns has loaded exactly the lines that it does not skip. -/
theorem foldlM_loadFilteredLine (ls : List (List String)) (st st' : DefaultModel × Bool)
    (h : ls.foldlM (loadFilteredLine f) st = some st') :
    st'.1 = (ls.filter fun l => skips f l = some false).foldl loadLine st.1 := by
  induction ls generalizing st with
  | nil =>
    obtain rfl : st = st' := by simpa using h
    rfl
  | cons l ls ih =>
    rw [List.foldlM_cons, loadFilteredLine_eq] at h
    rcases hs : skips f l with _ | _ | _
    · simp [hs] at h
    · simp only [hs, Option.map_some] at h
      have := ih _ h
      simpa [hs] using this
    · simp only [hs, Option.map_some] at h
      have := ih _ h
      simpa [hs] using this

/-! ### The lines after storing a model -/

/-- The types of the policy section start with `p`, those of the grouping section with `g`. -/
def TypesNamed (m : DefaultModel) : Prop :=
  (∀ t, (m.assertion "p" t).isSome → t.toList.head? = some 'p') ∧
    ∀ t, (m.assertion "g" t).isSome → t.toList.head? = some 'g'

/-- An adapter that holds the rules of `m`: after `save_policy`, or after adding the rules one by
    one, in any order, to an adapter that was empty. -/
inductive Filled (m : DefaultModel) : MemoryAdapter → Prop
  | saved (a : MemoryAdapter) : Filled m (a.savePolicy m)
  | added (ops : List (String × String × Rule))
      (h : ∀ s t r, (s, t, r) ∈ ops ↔ (s = "p" ∨ s = "g") ∧ r ∈ m.rules s t) :
      Filled m (ops.foldl (fun a op => (a.addPolicy op.1 op.2.1 op.2.2).1) default)

@[simp]
theorem mem_policy_extendLines (a : MemoryAdapter) (rs : List Rule) (l : List String) :
    l ∈ (a.extendLines s t rs).policy ↔ (∃ r ∈ rs, line s t r = l) ∨ l ∈ a.policy := by
  simp [extendLines]

/-- Saving one section adds a line for each of its rules. -/
theorem mem_policy_saveSection (m : DefaultModel) (sec : String) (c : Char) (hc : c.toString = sec)
    (hnamed : ∀ t, (m.assertion sec t).isSome → t.toList.head? = some c)
    (a : MemoryAdapter) (l : List String) :
    l ∈ (saveSection m sec a).policy ↔
      (∃ t, ∃ r ∈ m.rules sec t, line sec t r = l) ∨ l ∈ a.policy := by
  unfold saveSection
  cases hm : m.model sec with
  | none => simp [DefaultModel.rules, DefaultModel.assertion, hm]
  | some asts =>
    have hget : ∀ t ast, m.assertion sec t = some ast ↔ (t, ast) ∈ asts.entries := by
      simp [DefaultModel.assertion, hm, LinkedMap.get?_eq_some_iff]
    have hhead : ∀ e ∈ asts.entries, e.1.toList.head? = some c := by
      intro e he
      apply hnamed
      simp [(hget e.1 e.2).mpr he]
    -- the loop over the entries, each of which contributes its own rules
    have hloop : ∀ (es : List (String × Assertion)) (a : MemoryAdapter),
        (∀ e ∈ es, e.1.toList.head? = some c) →
        (l ∈ (es.foldl (fun a e =>
            match e.1.toList.head? with
            | some c => a.extendLines c.toString e.1 e.2.policy.toList
            | none => a) a).policy ↔
          (∃ e ∈ es, ∃ r ∈ e.2.policy, line sec e.1 r = l) ∨ l ∈ a.policy) := by
      intro es
      induction es with
      | nil => simp
      | cons e es ih =>
        intro a hes
        rw [List.foldl_cons, ih _ fun e' he' => hes e' (List.mem_cons_of_mem e he'),
          hes e List.mem_cons_self, mem_policy_extendLines, hc]
        simp only [List.mem_cons, exists_eq_or_imp, LinkedSet.mem_def]
        rw [or_left_comm, or_assoc]
    rw [hloop asts.entries a hhead]
    refine or_congr_left ?_
    constructor
    · rintro ⟨e, he, r, hr, hl⟩
      refine ⟨e.1, r, ?_, hl⟩
      rw [DefaultModel.rules_of_assertion m sec e.1 ((hget e.1 e.2).mpr he)]
      exact hr
    · rintro ⟨t, r, hr, hl⟩
      cases ht : m.assertion sec t with
      | none => simp [DefaultModel.rules, ht] at hr
      | some ast =>
        rw [DefaultModel.rules_of_assertion m sec t ht] at hr
        exact ⟨(t, ast), (hget t ast).mp ht, r, hr, hl⟩

variable {a : MemoryAdapter}

/-- **The stored lines.** Both ways of filling an adapter store one line for each rule. -/
theorem mem_policy_filled (hm : TypesNamed m) (ha : Filled m a) (l : List String) :
    l ∈ a.policy ↔ ∃ s t r, (s = "p" ∨ s = "g") ∧ r ∈ m.rules s t ∧ line s t r = l := by
  cases ha with
  | saved a =>
    rw [savePolicy, mem_policy_saveSection m "g" 'g' rfl hm.2,
      mem_policy_saveSection m "p" 'p' rfl hm.1]
    simp only [default, LinkedSet.not_mem_empty, or_false]
    constructor
    · rintro (⟨t, r, hr, hl⟩ | ⟨t, r, hr, hl⟩)
      · exact ⟨"g", t, r, Or.inr rfl, hr, hl⟩
      · exact ⟨"p", t, r, Or.inl rfl, hr, hl⟩
    · rintro ⟨s, t, r, rfl | rfl, hr, hl⟩
      · exact Or.inr ⟨t, r, hr, hl⟩
      · exact Or.inl ⟨t, r, hr, hl⟩
  | added ops hops =>
    have hloop : ∀ (ops : List (String × String × Rule)) (a : MemoryAdapter),
        l ∈ (ops.foldl (fun a op => (a.addPolicy op.1 op.2.1 op.2.2).1) a).policy ↔
          (∃ op ∈ ops, line op.1 op.2.1 op.2.2 = l) ∨ l ∈ a.policy := by
      intro ops
      induction ops with
      | nil => simp
      | cons op ops ih =>
        intro a
        rw [List.foldl_cons, ih]
        simp [addPolicy, exists_eq_or_imp, exists_eq_left, or_left_comm, or_assoc]
    rw [hloop ops default]
    simp only [default, LinkedSet.not_mem_empty, or_false, Prod.exists, hops, and_assoc]

/-! ### Saving and loading again -/

/-- A model holds, under every policy and grouping type, exactly the rules of `m` that are kept. -/
def Restores (m m' : DefaultModel) (keep : String → Rule → Prop) : Prop :=
  ∀ s t r, s = "p" ∨ s = "g" → (r ∈ m'.rules s t ↔ r ∈ m.rules s t ∧ keep s r)

/-- Loading into the cleared model restores every rule. -/
def LoadRestores (a : MemoryAdapter) (m : DefaultModel) : Prop :=
  Restores m (a.loadPolicy m.clearPolicy) fun _ _ => True

/-- A filtered load into the cleared model returns and restores the rules that match. -/
def LoadFilteredRestores (a : MemoryAdapter) (m : DefaultModel) (f : Filter) : Prop :=
  ∃ m' a', a.loadFilteredPolicy m.clearPolicy f = some (m', a') ∧
    Restores m m' fun s r => Matches (f.values s) r

/-- Every policy or grouping rule of the model satisfies `P`. -/
def AllRules (m : DefaultModel) (P : String → Rule → Prop) : Prop :=
  ∀ s t r, s = "p" ∨ s = "g" → r ∈ m.rules s t → P s r

/-- The lines of an adapter, after the ones that `p` rejects are dropped, loaded into a cleared
    model: each rule comes back with its type in front. -/
theorem mem_rules_load_filled (hm : TypesNamed m) (ha : Filled m a) (p : List String → Bool)
    (hs : s = "p" ∨ s = "g") :
    r ∈ ((a.policy.toList.filter p).foldl loadLine m.clearPolicy).rules s t ↔
      ∃ rest, rest ∈ m.rules s t ∧ p (line s t rest) = true ∧ r = t :: rest := by
  rw [mem_rules_loadPolicy, DefaultModel.rules_clearPolicy m s t hs,
    DefaultModel.isSome_assertion_clearPolicy]
  simp only [LinkedSet.not_mem_empty, false_or, List.mem_filter]
  have hline : ∀ rest, line s t rest ∈ a.policy.toList ↔ rest ∈ m.rules s t := by
    intro rest
    rw [← LinkedSet.mem_def, mem_policy_filled hm ha]
    constructor
    · rintro ⟨s', t', r', -, hr', hl⟩
      obtain ⟨rfl, rfl, rfl⟩ := hl
      exact hr'
    · intro hr
      exact ⟨s, t, rest, hs, hr, rfl⟩
  constructor
  · rintro ⟨-, rest, ⟨hl, hp⟩, hr⟩
    exact ⟨rest, (hline rest).mp hl, hp, hr⟩
  · rintro ⟨rest, hr, hp, rfl⟩
    refine ⟨?_, rest, ⟨(hline rest).mpr hr, hp⟩, rfl⟩
    cases hast : m.assertion s t with
    | none => simp [DefaultModel.rules, hast] at hr
    | some ast => rfl

/-- A set of rules that only contains rules with the type in front of another of its rules has no
    rule at all: each one would need a shorter one. -/
theorem no_rule_of_shift {P : Rule → Prop} (t : String)
    (h : ∀ r, P r → ∃ rest, P rest ∧ r = t :: rest) (r : Rule) : ¬P r := by
  induction r with
  | nil =>
    intro hr
    obtain ⟨rest, -, hrest⟩ := h [] hr
    exact absurd hrest (by simp)
  | cons x xs ih =>
    intro hr
    obtain ⟨rest, hP, hrest⟩ := h (x :: xs) hr
    simp only [List.cons.injEq] at hrest
    exact ih (hrest.2 ▸ hP)

theorem skips_line (s t : String) (rest : Rule) :
    skips f (line s t rest) = differs (t :: rest) 0 (f.values s) := rfl

/-- A line of a rule that matches is the kind that a filtered load does not skip. -/
theorem skips_eq_false_iff (s t : String) (rest : Rule) :
    skips f (line s t rest) = some false ↔ Matches (f.values s) rest := by
  simp [skips_line, differs_eq_false_iff, Matches]

/-- A line does not make a filtered load panic when its rule is long enough for the filter. -/
theorem skips_isSome_iff (s t : String) (rest : Rule) :
    (skips f (line s t rest)).isSome ↔ Fits (f.values s) rest := by
  simp [skips_line, differs_isSome_iff, Fits]

theorem loadRestores_iff (hm : TypesNamed m) (ha : Filled m a) :
    LoadRestores a m ↔ AllRules m fun _ _ => False := by
  have hload : ∀ s t r, s = "p" ∨ s = "g" →
      (r ∈ (a.loadPolicy m.clearPolicy).rules s t ↔ ∃ rest,
        rest ∈ m.rules s t ∧ r = t :: rest) := by
    intro s t r hs
    have h := mem_rules_load_filled (r := r) (t := t) hm ha (fun _ => true) hs
    simpa [loadPolicy] using h
  constructor
  · intro h s t r hs hr
    apply no_rule_of_shift (P := fun r => r ∈ m.rules s t) t _ r hr
    intro r hr
    exact (hload s t r hs).mp ((h s t r hs).mpr ⟨hr, trivial⟩)
  · intro h s t r hs
    rw [hload s t r hs]
    constructor
    · rintro ⟨rest, hrest, -⟩
      exact (h s t rest hs hrest).elim
    · rintro ⟨hr, -⟩
      exact (h s t r hs hr).elim

theorem loadFilteredRestores_iff (hm : TypesNamed m) (ha : Filled m a) (f : Filter) :
    LoadFilteredRestores a m f ↔
      AllRules m fun s r => Fits (f.values s) r ∧ ¬Matches (f.values s) r := by
  -- whether the load returns
  have hret : (a.policy.toList.foldlM (loadFilteredLine f) (m.clearPolicy, a.isFiltered)).isSome ↔
      AllRules m fun s r => Fits (f.values s) r := by
    rw [isSome_foldlM_loadFilteredLine]
    constructor
    · intro h s t r hs hr
      rw [← skips_isSome_iff f s t r]
      exact h _ ((mem_policy_filled hm ha _).mpr ⟨s, t, r, hs, hr, rfl⟩)
    · intro h l hl
      obtain ⟨s, t, r, hs, hr, rfl⟩ := (mem_policy_filled hm ha l).mp hl
      exact (skips_isSome_iff f s t r).mpr (h s t r hs hr)
  -- what it loads
  have hload : ∀ st, a.policy.toList.foldlM (loadFilteredLine f) (m.clearPolicy, a.isFiltered) =
      some st → ∀ s t r, s = "p" ∨ s = "g" → (r ∈ st.1.rules s t ↔
        ∃ rest, (rest ∈ m.rules s t ∧ Matches (f.values s) rest) ∧ r = t :: rest) := by
    intro st hst s t r hs
    simp [foldlM_loadFilteredLine f _ _ st hst, mem_rules_load_filled hm ha _ hs,
      decide_eq_true_eq, skips_eq_false_iff, and_assoc]
  constructor
  · rintro ⟨m', a', hl, hres⟩
    obtain ⟨st, hst, hm'⟩ := Option.map_eq_some_iff.mp hl
    obtain ⟨rfl, -⟩ := Prod.mk.inj hm'
    have hfits := hret.mp (by rw [hst]; rfl)
    intro s t r hs hr
    refine ⟨hfits s t r hs hr, fun hmatch => ?_⟩
    apply no_rule_of_shift (P := fun r => r ∈ m.rules s t ∧ Matches (f.values s) r) t _ r
      ⟨hr, hmatch⟩
    intro r hr
    exact (hload st hst s t r hs).mp ((hres s t r hs).mpr hr)
  · intro h
    have hsome := hret.mpr fun s t r hs hr => (h s t r hs hr).1
    obtain ⟨st, hst⟩ := Option.isSome_iff_exists.mp hsome
    refine ⟨st.1, { a with isFiltered := st.2 }, ?_, ?_⟩
    · simp [loadFilteredPolicy, hst]
    · intro s t r hs
      rw [hload st hst s t r hs]
      constructor
      · rintro ⟨rest, ⟨hrest, hmatch⟩, -⟩
        exact absurd hmatch (h s t rest hs hrest).2
      · rintro ⟨hr, hmatch⟩
        exact absurd hmatch (h s t r hs hr).2

/-- **Save and load.** Every loaded rule keeps its type as an extra first field, so a load gives
    back the saved rules exactly when there are none, and a filtered load exactly when none of
    them matches (and each is long enough not to be indexed out of range). -/
theorem load_restores_iff (m : DefaultModel) (a : MemoryAdapter) (hm : TypesNamed m)
    (ha : Filled m a) :
    (LoadRestores a m ↔ AllRules m fun _ _ => False) ∧
      ∀ f, LoadFilteredRestores a m f ↔
        AllRules m fun s r => Fits (f.values s) r ∧ ¬Matches (f.values s) r :=
  ⟨loadRestores_iff hm ha, loadFilteredRestores_iff hm ha⟩

/-- A model with one policy type, holding `alice, data1, read`. -/
def sampleModel : DefaultModel where
  model sec :=
    if sec = "p" then
      some
        { entries :=
            [("p", { value := "sub, obj, act", tokens := ["p_sub", "p_obj", "p_act"],
                     policy := LinkedSet.empty.insert ["alice", "data1", "read"] })]
          nodup := List.nodup_singleton "p" }
    else none

theorem sampleModel_typesNamed : TypesNamed sampleModel := by
  constructor
  · intro t ht
    by_cases h : t = "p"
    · subst h
      decide
    · have hb : (t == "p") = false := by simpa using h
      simp [sampleModel, DefaultModel.assertion, LinkedMap.get?, List.lookup_cons, hb] at ht
  · intro t ht
    simp [sampleModel, DefaultModel.assertion] at ht

theorem sampleModel_rule : ["alice", "data1", "read"] ∈ sampleModel.rules "p" "p" := by
  decide

theorem load_restores_iff_sample :
    TypesNamed sampleModel ∧ Filled sampleModel (default.savePolicy sampleModel) ∧
      (LoadRestores (default.savePolicy sampleModel) sampleModel ↔
        AllRules sampleModel fun _ _ => False) :=
  ⟨sampleModel_typesNamed, Filled.saved default,
    (load_restores_iff sampleModel _ sampleModel_typesNamed (Filled.saved default)).1⟩

/-- Saving `alice, data1, read` and loading it gives `p, alice, data1, read` instead. -/
theorem load_keeps_ptype :
    Filled sampleModel (default.savePolicy sampleModel) ∧
      (((default.savePolicy sampleModel).loadPolicy sampleModel.clearPolicy).getPolicy "p" "p" =
        [["p", "alice", "data1", "read"]]) ∧
      ¬LoadRestores (default.savePolicy sampleModel) sampleModel := by
  refine ⟨Filled.saved default, by decide, ?_⟩
  intro h
  have hmem := (h "p" "p" ["alice", "data1", "read"] (Or.inl rfl)).mpr ⟨sampleModel_rule, trivial⟩
  revert hmem
  decide

end MemoryAdapter

end TeaclaveCrates.Casbin
