import Mathlib.Data.List.AList
import Mathlib.Algebra.BigOperators.Group.List.Basic
import Mathlib.Algebra.Order.Ring.Defs
import Mathlib.Tactic.Ring
import Mathlib.Tactic.Linarith

/-!
# Finite Tables

A finite map from keys to values, as an association list with distinct keys
(`AList`). This module adds what a *resource* argument needs on top of Mathlib's
lookup lemmas: the size of a table, the total weight of its entries, and how
both change when an entry is inserted or a table is filtered.

## Main results

- `Table.lookup_retain`: a filtered table answers a lookup by filtering the answer
- `Table.lookup₂_foldl_insert₂`: what a table of tables contains that is filled from a list
- `Table.weight_insert_new`, `Table.weight_insert_known`: weight after an insertion
- `Table.weight_retain`: dropping entries of known weight `c` frees `c` for each
- `Table.weight_le_weight_add`: comparing two weights entry by entry
-/

namespace OasRs.Lib

universe u v w

/-- A finite map with keys `κ` and values `ν`. -/
abbrev Table (κ : Type u) (ν : Type v) : Type (max u v) := AList (fun _ : κ => ν)

namespace Table

variable {κ : Type u} {ν : Type v} [DecidableEq κ]

/-- Number of entries. -/
def size (t : Table κ ν) : ℕ := t.entries.length

/-- Keep the entries that satisfy `p`. -/
def retain (p : κ → ν → Bool) (t : Table κ ν) : Table κ ν :=
  ⟨t.entries.filter fun e => p e.1 e.2, t.nodupKeys.sublist List.filter_sublist⟩

/-! ## Lookup -/

theorem lookup_insert (t : Table κ ν) (a a' : κ) (b : ν) :
    (AList.insert a' b t).lookup a = if a = a' then some b else t.lookup a := by
  split
  · rename_i h
    rw [h, AList.lookup_insert]
  · rename_i h
    exact AList.lookup_insert_ne h

theorem lookup_erase (t : Table κ ν) (a a' : κ) :
    (AList.erase a' t).lookup a = if a = a' then none else t.lookup a := by
  split
  · rename_i h
    rw [h, AList.lookup_erase]
  · rename_i h
    exact AList.lookup_erase_ne h

/-- Filtering an association list filters the answer of a lookup. -/
private theorem dlookup_filter (p : κ → ν → Bool) (a : κ) :
    ∀ l : List (Σ _ : κ, ν), l.NodupKeys →
      (l.filter fun e => p e.1 e.2).dlookup a = (l.dlookup a).filter (p a)
  | [], _ => rfl
  | ⟨k, b⟩ :: l, hl => by
    obtain ⟨hk, hl'⟩ := List.nodupKeys_cons.mp hl
    have ih := dlookup_filter p a l hl'
    by_cases hak : a = k
    · subst hak
      have hnone : l.dlookup a = none := List.dlookup_eq_none.mpr hk
      cases hp : p a b with
      | true => simp [hp, Option.filter]
      | false => simp [hp, ih, hnone, Option.filter]
    · have hskip : ∀ l' : List (Σ _ : κ, ν), (⟨k, b⟩ :: l').dlookup a = l'.dlookup a :=
        fun l' => List.dlookup_cons_ne l' (⟨k, b⟩ : Σ _ : κ, ν) hak
      cases hp : p k b with
      | true => simp only [List.filter_cons, hp, if_true, hskip, ih]
      | false => simp only [List.filter_cons, hp, Bool.false_eq_true, if_false, hskip, ih]

@[simp] theorem lookup_retain (p : κ → ν → Bool) (t : Table κ ν) (a : κ) :
    AList.lookup a (t.retain p) = (AList.lookup a t).filter (p a) :=
  dlookup_filter p a t.entries t.nodupKeys

theorem mem_insert_iff (t : Table κ ν) (a a' : κ) (b : ν) : a ∈ t.insert a' b ↔ a = a' ∨ a ∈ t :=
  AList.mem_insert t

/-! ## Tables of tables -/

section Nested

variable {κ' : Type v} [DecidableEq κ'] {α : Type w}

/-- Look up by two keys. -/
def lookup₂ (t : Table κ (Table κ' ν)) (a : κ) (b : κ') : Option ν :=
  (t.lookup a).bind fun inner => inner.lookup b

/-- Insert by two keys. -/
def insert₂ (t : Table κ (Table κ' ν)) (a : κ) (b : κ') (v : ν) : Table κ (Table κ' ν) :=
  t.insert a (((t.lookup a).getD ∅).insert b v)

theorem lookup₂_insert₂ (t : Table κ (Table κ' ν)) (a a' : κ) (b b' : κ') (v : ν) :
    (t.insert₂ a' b' v).lookup₂ a b = if a = a' ∧ b = b' then some v else t.lookup₂ a b := by
  rw [lookup₂, insert₂, lookup_insert]
  by_cases ha : a = a'
  · subst ha
    rw [if_pos rfl, Option.bind_some, lookup_insert]
    by_cases hb : b = b'
    · rw [if_pos hb, if_pos ⟨rfl, hb⟩]
    · rw [if_neg hb, if_neg fun h => hb h.2, lookup₂]
      cases t.lookup a with
      | none => rfl
      | some inner => rfl
  · rw [if_neg ha, if_neg fun h => ha h.1, lookup₂]

variable {f : α → κ} {g : α → κ'} {h : α → ν}

/-- The first keys of a table that is filled from a list. -/
theorem mem_foldl_insert₂ (xs : List α) (t : Table κ (Table κ' ν)) (a : κ) :
    a ∈ xs.foldl (fun t x => t.insert₂ (f x) (g x) (h x)) t ↔ (∃ x ∈ xs, f x = a) ∨ a ∈ t := by
  induction xs generalizing t with
  | nil => simp
  | cons x xs ih =>
    rw [List.foldl_cons, ih, insert₂, mem_insert_iff]
    simp only [List.mem_cons, exists_eq_or_imp, eq_comm (a := a)]
    rw [or_left_comm, or_assoc]

/-- What a table contains that is filled from a list without repeated keys. -/
theorem lookup₂_foldl_insert₂ {xs : List α} (hnodup : (xs.map fun x => (f x, g x)).Nodup)
    (t : Table κ (Table κ' ν)) (a : κ) (b : κ') (v : ν) :
    (xs.foldl (fun t x => t.insert₂ (f x) (g x) (h x)) t).lookup₂ a b = some v ↔
      (∃ x ∈ xs, f x = a ∧ g x = b ∧ h x = v) ∨
        (∀ x ∈ xs, ¬ (f x = a ∧ g x = b)) ∧ t.lookup₂ a b = some v := by
  induction xs generalizing t with
  | nil => simp
  | cons x xs ih =>
    rw [List.map_cons, List.nodup_cons] at hnodup
    obtain ⟨hfresh, hnodup⟩ := hnodup
    simp only [List.foldl_cons, ih hnodup, lookup₂_insert₂, List.mem_cons, exists_eq_or_imp,
      forall_eq_or_imp]
    by_cases hx : f x = a ∧ g x = b
    · -- no other entry has the keys of this one
      have hnone : ∀ y ∈ xs, ¬ (f y = a ∧ g y = b) := by
        intro y hy hkeys
        apply hfresh
        rw [List.mem_map]
        exact ⟨y, hy, by rw [hkeys.1, hkeys.2, hx.1, hx.2]⟩
      rw [if_pos ⟨hx.1.symm, hx.2.symm⟩, Option.some.injEq]
      constructor
      · rintro (⟨y, hy, hf, hg, -⟩ | ⟨-, hv⟩)
        · exact absurd ⟨hf, hg⟩ (hnone y hy)
        · exact .inl (.inl ⟨hx.1, hx.2, hv⟩)
      · rintro ((⟨-, -, hv⟩ | ⟨y, hy, hf, hg, -⟩) | ⟨⟨hnot, -⟩, -⟩)
        · exact .inr ⟨hnone, hv⟩
        · exact absurd ⟨hf, hg⟩ (hnone y hy)
        · exact absurd hx hnot
    · -- other keys see the same table
      rw [if_neg fun heq => hx ⟨heq.1.symm, heq.2.symm⟩]
      constructor
      · rintro (hxs | ⟨hnone, hv⟩)
        · exact .inl (.inr hxs)
        · exact .inr ⟨⟨hx, hnone⟩, hv⟩
      · rintro ((⟨hf, hg, -⟩ | hxs) | ⟨⟨-, hnone⟩, hv⟩)
        · exact absurd ⟨hf, hg⟩ hx
        · exact .inl hxs
        · exact .inr ⟨hnone, hv⟩

end Nested

/-! ## Size -/

omit [DecidableEq κ] in
theorem size_retain_le (p : κ → ν → Bool) (t : Table κ ν) : (t.retain p).size ≤ t.size :=
  List.length_filter_le _ _

/-- A present entry can be moved to the front of the association list. -/
private theorem perm_cons_kerase {a : κ} {b : ν} {t : Table κ ν}
    (h : AList.lookup a t = some b) :
    t.entries.Perm (⟨a, b⟩ :: t.entries.kerase a) := by
  have hmem : a ∈ t.entries.keys := by
    have : (AList.lookup a t).isSome := by simp [h]
    exact AList.lookup_isSome.mp this
  obtain ⟨b', l₁, l₂, hnot, hsplit, herase⟩ := List.exists_of_kerase hmem
  have hb : b' = b := by
    have hin : (⟨a, b'⟩ : Σ _ : κ, ν) ∈ t.entries := by simp [hsplit]
    have := AList.mem_lookup_iff.mpr hin
    rw [h] at this
    exact (Option.mem_some_iff.mp this).symm
  subst hb
  rw [herase, hsplit]
  exact List.perm_middle

theorem size_insert_new {a : κ} {t : Table κ ν} (b : ν) (h : AList.lookup a t = none) :
    Table.size (AList.insert a b t) = t.size + 1 := by
  have hnot : a ∉ t := AList.lookup_eq_none.mp h
  simp only [size, AList.entries_insert_of_notMem hnot, List.length_cons]

theorem size_insert_known {a : κ} {b : ν} {t : Table κ ν} (b' : ν)
    (h : AList.lookup a t = some b) : Table.size (AList.insert a b' t) = t.size := by
  have hperm := (perm_cons_kerase h).length_eq
  simp only [size, AList.entries_insert, List.length_cons] at hperm ⊢
  exact hperm.symm

/-! ## Weight -/

section Weight

variable {M : Type w} [CommRing M]

/-- The sum of `f` over the entries. -/
def weight (f : κ → ν → M) (t : Table κ ν) : M := (t.entries.map fun e => f e.1 e.2).sum

theorem weight_insert_new (f : κ → ν → M) {a : κ} {t : Table κ ν} (b : ν)
    (h : AList.lookup a t = none) :
    Table.weight f (AList.insert a b t) = f a b + t.weight f := by
  have hnot : a ∉ t := AList.lookup_eq_none.mp h
  simp only [weight, AList.entries_insert_of_notMem hnot, List.map_cons, List.sum_cons]

/-- Replacing the value of a known key exchanges its weight. -/
theorem weight_insert_known (f : κ → ν → M) {a : κ} {b : ν} {t : Table κ ν} (b' : ν)
    (h : AList.lookup a t = some b) :
    Table.weight f (AList.insert a b' t) = t.weight f - f a b + f a b' := by
  have hperm := ((perm_cons_kerase h).map fun e => f e.1 e.2).sum_eq
  simp only [weight, AList.entries_insert, List.map_cons, List.sum_cons] at hperm ⊢
  rw [hperm]
  ring

/-- If every dropped entry weighs `c`, then a filtered table together with `c`
    for each dropped entry weighs what the table did. -/
theorem weight_retain (f : κ → ν → M) (p : κ → ν → Bool) (c : M) (t : Table κ ν)
    (hc : ∀ a b, AList.lookup a t = some b → p a b = false → f a b = c) :
    (t.retain p).weight f + ((t.size : M) - ((t.retain p).size : M)) * c = t.weight f := by
  have key : ∀ l : List (Σ _ : κ, ν), (∀ e ∈ l, p e.1 e.2 = false → f e.1 e.2 = c) →
      ((l.filter fun e => p e.1 e.2).map fun e => f e.1 e.2).sum +
        ((l.length : M) - ((l.filter fun e => p e.1 e.2).length : M)) * c =
      (l.map fun e => f e.1 e.2).sum := by
    intro l
    induction l with
    | nil => intro _; simp
    | cons e l ih =>
      intro hl
      have ih' := ih fun e' he' => hl e' (List.mem_cons_of_mem _ he')
      cases hp : p e.1 e.2 with
      | true =>
        simp only [List.filter_cons, hp, if_true, List.map_cons, List.sum_cons,
          List.length_cons, Nat.cast_add, Nat.cast_one]
        rw [← ih']
        ring
      | false =>
        have he := hl e (List.mem_cons_self ..) hp
        simp only [List.filter_cons, hp, Bool.false_eq_true, if_false, List.map_cons,
          List.sum_cons, List.length_cons, Nat.cast_add, Nat.cast_one, he]
        rw [← ih']
        ring
  refine key t.entries fun e he => hc e.1 e.2 ?_
  exact AList.mem_lookup_iff.mpr he

/-- Comparing weights entry by entry, up to a constant per entry. -/
theorem weight_le_weight_add [LinearOrder M] [IsStrictOrderedRing M] {f g : κ → ν → M} {c : M}
    {t : Table κ ν} (h : ∀ a b, AList.lookup a t = some b → f a b ≤ g a b + c) :
    t.weight f ≤ t.weight g + (t.size : M) * c := by
  have key : ∀ l : List (Σ _ : κ, ν), (∀ e ∈ l, f e.1 e.2 ≤ g e.1 e.2 + c) →
      (l.map fun e => f e.1 e.2).sum ≤ (l.map fun e => g e.1 e.2).sum + (l.length : M) * c := by
    intro l
    induction l with
    | nil => intro _; simp
    | cons e l ih =>
      intro hl
      have he := hl e (List.mem_cons_self ..)
      have ih' := ih fun e' he' => hl e' (List.mem_cons_of_mem _ he')
      simp only [List.map_cons, List.sum_cons, List.length_cons, Nat.cast_add, Nat.cast_one]
      linarith
  exact key t.entries fun e he => h e.1 e.2 (AList.mem_lookup_iff.mpr he)

end Weight

end Table

end OasRs.Lib
