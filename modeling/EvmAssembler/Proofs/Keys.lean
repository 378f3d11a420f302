import Mathlib.Data.List.Nodup

/-!
# `EvmAssembler.Proofs.Keys`: lists of items with keys

Labels, member names and opcode bytes are keys of lists that are built up item by item. Where no key
is repeated, the order of a list does not matter for what is found under a key
(`lookup_eq_some_iff_mem`, `lookup_reverse`). Where one is, a pass over the list stops at the first
item whose key has been there before: `FirstRepeat` describes that item and the earlier one without
mentioning a pass. `not_nodup_map_iff` says what there is if keys are repeated at all, by positions.
-/

set_option autoImplicit false

namespace EvmAssembler

/-! ### Looking up keys that are not repeated -/

/-- Where no key is repeated, looking an entry up finds every entry. -/
theorem lookup_eq_some_iff_mem {α β : Type} [BEq α] [LawfulBEq α] {a : α} {b : β}
    {l : List (α × β)} (h : (l.map Prod.fst).Nodup) : l.lookup a = some b ↔ (a, b) ∈ l := by
  induction l with
  | nil => simp
  | cons d l ih =>
    obtain ⟨key, value⟩ := d
    obtain ⟨hnew, hrest⟩ := List.nodup_cons.mp h
    rw [List.lookup_cons, List.mem_cons, Prod.mk.injEq, ← ih hrest]
    by_cases ha : a = key
    · -- The entry is found at once, and no other one has its key.
      subst ha
      have hnone : ¬l.lookup a = some b := by
        rw [ih hrest]
        exact fun hmem => hnew (List.mem_map.mpr ⟨_, hmem, rfl⟩)
      rw [beq_self_eq_true]
      simp [hnone, eq_comm]
    · rw [beq_eq_false_iff_ne.mpr ha]
      simp [ha]

/-- So it does not matter from which end an entry is looked for. -/
theorem lookup_reverse {α β : Type} [BEq α] [LawfulBEq α] {l : List (α × β)} (a : α)
    (h : (l.map Prod.fst).Nodup) : l.reverse.lookup a = l.lookup a := by
  have hreverse : (l.reverse.map Prod.fst).Nodup := by
    rw [List.map_reverse]
    exact List.nodup_reverse.mpr h
  ext b
  rw [lookup_eq_some_iff_mem hreverse, List.mem_reverse, lookup_eq_some_iff_mem h]

/-! ### Repeated keys -/

/-- Two items of a list, at different positions, are related. -/
def HasPair {α : Type} (R : α → α → Prop) (items : List α) : Prop :=
  ∃ (i j : Nat) (a b : α), i < j ∧ items[i]? = some a ∧ items[j]? = some b ∧ R a b

/-- Either two items are related or no two are. -/
theorem not_pairwise_iff {α : Type} {R : α → α → Prop} {items : List α} :
    ¬items.Pairwise (fun a b => ¬R a b) ↔ HasPair R items := by
  rw [List.pairwise_iff_getElem]
  constructor
  · intro h
    simp only [not_forall, not_not] at h
    obtain ⟨i, j, hi, hj, hlt, hR⟩ := h
    exact ⟨i, j, _, _, hlt, List.getElem?_eq_getElem hi, List.getElem?_eq_getElem hj, hR⟩
  · rintro ⟨i, j, a, b, hlt, ha, hb, hR⟩ h
    obtain ⟨hi, rfl⟩ := List.getElem?_eq_some_iff.mp ha
    obtain ⟨hj, rfl⟩ := List.getElem?_eq_some_iff.mp hb
    exact h i j hi hj hlt hR

section
variable {α κ : Type} {key : α → κ} {items : List α} {first second : α}

/-- Keys are repeated exactly when items at two positions have the same. -/
theorem not_nodup_map_iff : ¬(items.map key).Nodup ↔ HasPair (fun a b => key a = key b) items := by
  rw [← not_pairwise_iff, List.Nodup, List.pairwise_map]

/-- The second item is the first of a list whose key has been there before, and the first item is
the one that had it. -/
def FirstRepeat (key : α → κ) (items : List α) (first second : α) : Prop :=
  ∃ before between after, items = before ++ first :: between ++ second :: after ∧
    ((before ++ first :: between).map key).Nodup ∧ key first = key second

/-- What stands behind items with distinct keys and has the key of one of them is the first of its
kind. -/
theorem firstRepeat_of_mem {seen rest : List α} (distinct : (seen.map key).Nodup)
    (hmem : first ∈ seen) (hkey : key first = key second) :
    FirstRepeat key (seen ++ second :: rest) first second := by
  obtain ⟨before, between, rfl⟩ := List.append_of_mem hmem
  exact ⟨before, between, rest, rfl, distinct, hkey⟩

/-- Behind items with distinct keys, one with a new key keeps them distinct. -/
theorem nodup_map_append_singleton {seen : List α} {a : α} (distinct : (seen.map key).Nodup)
    (fresh : ∀ b ∈ seen, key b ≠ key a) : ((seen ++ [a]).map key).Nodup := by
  rw [List.map_append, List.map_singleton, ← List.concat_eq_append, List.nodup_concat]
  refine ⟨fun hmem => ?_, distinct⟩
  obtain ⟨b, hb, hkey⟩ := List.mem_map.mp hmem
  exact fresh b hb hkey

/-- Where a key is the first to be repeated, keys are repeated. -/
theorem FirstRepeat.not_nodup (h : FirstRepeat key items first second) :
    ¬(items.map key).Nodup := by
  obtain ⟨before, between, after, rfl, -, hkey⟩ := h
  intro hnodup
  rw [List.map_append, List.nodup_append] at hnodup
  exact hnodup.2.2 (key first) (List.mem_map_of_mem (by simp)) (key second)
    (List.mem_map_of_mem List.mem_cons_self) hkey

end

end EvmAssembler
