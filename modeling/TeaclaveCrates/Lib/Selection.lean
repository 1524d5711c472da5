import TeaclaveCrates.Lib.PriorityQueue

namespace TeaclaveCrates.Lib

/-!
# Selecting the first items of a list

The `k` items of a list that come first in an order, kept in a bounded queue while the list is gone
through, and selected again from the selections of its parts.

* `Selected` — a list of `k` items that come before all the others;
* `Selected.replace`, `Selected.skip` — one more item, when the selection is full;
* `Selected.merge` — a selection from selections;
* `Selected.sort_eq` — a selection in order.
-/

variable {α : Type*} {le : α → α → Prop} {k : Nat} {xs items : List α} {x a : α}

/-- `items` are the first `k` of `xs`, or all if there are no more. -/
def Selected (le : α → α → Prop) (k : Nat) (xs items : List α) : Prop :=
  ∃ rest, xs.Perm (items ++ rest) ∧ (∀ b ∈ items, ∀ c ∈ rest, le b c) ∧ items.length ≤ k ∧
    (rest ≠ [] → items.length = k)

theorem Selected.nil : Selected le k [] [] := ⟨[], by simp⟩

theorem Selected.perm {items' : List α} (h : Selected le k xs items) (hperm : items'.Perm items) :
    Selected le k xs items' := by
  obtain ⟨rest, hxs, hle, hlen, hfull⟩ := h
  rw [← hperm.length_eq] at hlen hfull
  exact ⟨rest, hxs.trans (hperm.symm.append_right _), fun b hb => hle b (hperm.mem_iff.mp hb), hlen,
    hfull⟩

theorem Selected.length_le (h : Selected le k xs items) : items.length ≤ k := by
  obtain ⟨-, -, -, hlen, -⟩ := h
  exact hlen

theorem Selected.subset (h : Selected le k xs items) : items ⊆ xs := by
  obtain ⟨rest, hxs, -⟩ := h
  exact fun b hb => hxs.mem_iff.mpr (List.mem_append_left _ hb)

theorem Selected.nodup (h : Selected le k xs items) (hxs : xs.Nodup) : items.Nodup := by
  obtain ⟨rest, hperm, -⟩ := h
  exact (List.nodup_append.mp (hperm.nodup_iff.mp hxs)).1

theorem Selected.map {β : Type*} {le' : β → β → Prop} {f : α → β}
    (hf : ∀ b c, le b c → le' (f b) (f c)) (h : Selected le k xs items) :
    Selected le' k (xs.map f) (items.map f) := by
  obtain ⟨rest, hxs, hle, hlen, hfull⟩ := h
  refine ⟨rest.map f, by simpa using hxs.map f, ?_, by simpa using hlen, by simpa using hfull⟩
  simp only [List.mem_map]
  rintro _ ⟨b, hb, rfl⟩ _ ⟨c, hc, rfl⟩
  exact hf b c (hle b hb c hc)

/-- While there is room, everything is selected. -/
theorem Selected.push (h : Selected le k xs items) (hroom : items.length < k) :
    Selected le k (xs ++ [x]) (x :: items) := by
  obtain ⟨rest, hxs, hle, hlen, hfull⟩ := h
  have hrest : rest = [] := by
    by_contra hne
    exact absurd (hfull hne) hroom.ne
  subst hrest
  refine ⟨[], ?_, by simp, hroom, fun hne => absurd rfl hne⟩
  exact (List.perm_append_singleton x xs).trans (by simpa using hxs)

/-- An item behind the last one that is selected is left out. -/
theorem Selected.skip (h : Selected le k xs items) (hfull : items.length = k)
    (hx : ∀ b ∈ items, le b x) : Selected le k (xs ++ [x]) items := by
  obtain ⟨rest, hxs, hle, hlen, -⟩ := h
  refine ⟨rest ++ [x], ?_, ?_, hlen, fun _ => hfull⟩
  · rw [← List.append_assoc]
    exact hxs.append_right _
  · intro b hb c hc
    rcases List.mem_append.mp hc with hold | hnew
    · exact hle b hb c hold
    · rw [List.mem_singleton.mp hnew]
      exact hx b hb

/-- An item in front of the last one that is selected takes its place. -/
theorem Selected.replace [IsTrans α le] {others : List α} (h : Selected le k xs items)
    (hfull : items.length = k) (hperm : items.Perm (a :: others)) (hlast : ∀ b ∈ others, le b a)
    (hx : le x a) : Selected le k (xs ++ [x]) (x :: others) := by
  obtain ⟨rest, hxs, hle, -, -⟩ := h
  have hlen : (x :: others).length = k := by
    rw [← hfull, hperm.length_eq]
    rfl
  have ha : ∀ b ∈ x :: others, le b a := by
    intro b hb
    rcases List.mem_cons.mp hb with rfl | hb
    · exact hx
    · exact hlast b hb
  refine ⟨a :: rest, ?_, ?_, hlen.le, fun _ => hlen⟩
  · refine (List.perm_append_singleton x xs).trans (.cons x ?_)
    exact (hxs.trans (hperm.append_right _)).trans List.perm_middle.symm
  · intro b hb c hc
    rcases List.mem_cons.mp hc with rfl | hc
    · exact ha b hb
    · exact trans_of le (ha b hb) (hle a (hperm.mem_iff.mpr List.mem_cons_self) c hc)

/-- **A selection from selections.** Each part is cut down to its first `k` items, and from what is
    left of all of them the first `k` are selected. -/
theorem Selected.merge [IsTrans α le] {parts selections : List (List α)}
    (hparts : List.Forall₂ (Selected le k) parts selections)
    (hnodup : selections.flatten.Nodup) (h : Selected le k selections.flatten items) :
    Selected le k parts.flatten items := by
  obtain ⟨rest, hxs, hle, hlen, hfull⟩ := h
  -- what the parts have left out
  obtain ⟨out, hout, hbehind⟩ : ∃ out, parts.flatten.Perm (selections.flatten ++ out) ∧
      ∀ c ∈ out, ∃ s ∈ selections, s.length = k ∧ ∀ b ∈ s, le b c := by
    clear hxs hnodup
    induction hparts with
    | nil => exact ⟨[], by simp⟩
    | @cons part s parts selections hpart _ ih =>
      obtain ⟨out, hout, hbehind⟩ := ih
      obtain ⟨left, hperm, hles, -, hfulls⟩ := hpart
      refine ⟨left ++ out, ?_, ?_⟩
      · refine (hperm.append hout).trans ?_
        rw [List.flatten_cons, List.append_assoc, List.append_assoc]
        exact .append_left _ (List.perm_append_comm_assoc _ _ _)
      · intro c hc
        rcases List.mem_append.mp hc with hc | hc
        · exact ⟨s, List.mem_cons_self, hfulls (List.ne_nil_of_mem hc), fun b hb => hles b hb c hc⟩
        · obtain ⟨t, ht, hspec⟩ := hbehind c hc
          exact ⟨t, List.mem_cons_of_mem _ ht, hspec⟩
  have hsub : ∀ s ∈ selections, s.Nodup ∧ ∀ b ∈ s, b ∈ items ∨ b ∈ rest := fun s hs =>
    ⟨(List.nodup_flatten.mp hnodup).1 s hs, fun b hb => List.mem_append.mp
      (hxs.mem_iff.mp (List.mem_flatten_of_mem hs hb))⟩
  refine ⟨rest ++ out, ?_, ?_, hlen, ?_⟩
  · rw [← List.append_assoc]
    exact hout.trans (hxs.append_right _)
  · intro b hb c hc
    rcases List.mem_append.mp hc with hc | hc
    · exact hle b hb c hc
    · obtain ⟨s, hs, hslen, hsle⟩ := hbehind c hc
      obtain ⟨hsnodup, hsmem⟩ := hsub s hs
      by_cases hbs : b ∈ s
      · exact hsle b hbs
      · -- `k` items and `b` are too many to be selected: one of `s` is not
        obtain ⟨e, he, hrest⟩ : ∃ e ∈ s, e ∈ rest := by
          by_contra hnone
          push Not at hnone
          have hsubset : b :: s ⊆ items := by
            intro e he
            rcases List.mem_cons.mp he with rfl | he
            · exact hb
            · exact (hsmem e he).resolve_right (hnone e he)
          have hcount :=
            (List.subperm_of_subset (List.nodup_cons.mpr ⟨hbs, hsnodup⟩) hsubset).length_le
          rw [List.length_cons] at hcount
          omega
        exact trans_of le (hle b hb e hrest) (hsle e he)
  · intro hne
    by_cases hrest : rest = []
    · subst hrest
      obtain ⟨c, hc⟩ := List.exists_mem_of_ne_nil _ hne
      obtain ⟨s, hs, hslen, -⟩ := hbehind c (by simpa using hc)
      obtain ⟨hsnodup, hsmem⟩ := hsub s hs
      have hcount := (List.subperm_of_subset hsnodup fun e he => by simpa using hsmem e he).length_le
      omega
    · exact hfull hrest

/-- **A selection in order** is the front of the list in order. -/
theorem Selected.sort_eq [DecidableRel le] [Std.Total le] [IsTrans α le] [Std.Antisymm le]
    (h : Selected le k xs items) : items.insertionSort le = (xs.insertionSort le).take k := by
  obtain ⟨rest, hxs, hle, hlen, hfull⟩ := h
  have hsorted : (items.insertionSort le ++ rest.insertionSort le).Pairwise le :=
    List.pairwise_append.mpr ⟨List.pairwise_insertionSort _ _, List.pairwise_insertionSort _ _,
      fun b hb c hc => hle b (by simpa using hb) c (by simpa using hc)⟩
  have hperm : (xs.insertionSort le).Perm (items.insertionSort le ++ rest.insertionSort le) :=
    (List.perm_insertionSort _ _).trans (hxs.trans
      ((List.perm_insertionSort _ _).symm.append (List.perm_insertionSort _ _).symm))
  rw [hperm.eq_of_pairwise' (List.pairwise_insertionSort _ _) hsorted]
  by_cases hrest : rest = []
  · rw [hrest, List.insertionSort_nil, List.append_nil, List.take_of_length_le]
    simpa using hlen
  · rw [List.take_append_of_le_length (by simp [hfull hrest]), List.take_of_length_le]
    simpa using hlen

end TeaclaveCrates.Lib
