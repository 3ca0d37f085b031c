import Mathlib.Algebra.Order.Ring.Cast
import Mathlib.Algebra.Order.Ring.Rat
import Mathlib.Data.String.Basic
import Mathlib.Data.List.Basic
import Mathlib.Tactic.Common

/-!
# JSON Values

`serde_json::Value`, and `serde_json::Map`: a list of entries that is kept sorted by key, so
that equal maps are equal lists. A float is the rational number that it stands for, which is
of any precision here.

## Overview

- `Number`: `1` and `1.0` are two numbers of one value
- `Json`, `Json.object`, `Entries.insert`, `Entries.get`, `Entries.remove`
- `Entries.get_insert`, `Entries.get_remove`: what a map contains after an update
-/

namespace OasRs

/-- `serde_json::Number`: an integer or a finite float -/
inductive Number where
  | int (value : ℤ)
  | float (value : ℚ)
  deriving DecidableEq, Repr

namespace Number

/-- What a number amounts to, however it is written. -/
def value : Number → ℚ
  | int n => n
  | float q => q

/-- A number without a fraction. -/
def isIntegral : Number → Bool
  | int _ => true
  | float q => q.isInt

theorem value_int_le {n m : ℤ} : (int n).value ≤ (int m).value ↔ n ≤ m := Int.cast_le

end Number

/-- `serde_json::Value` -/
inductive Json where
  | null
  | bool (value : Bool)
  | num (value : Number)
  | str (value : String)
  | arr (items : List Json)
  | obj (entries : List (String × Json))
  deriving Repr, Inhabited

/-- `serde_json::Map` -/
abbrev Entries : Type := List (String × Json)

namespace Json

/-! ## Equality -/

mutual

/-- `PartialEq` of `Value` -/
def beq : Json → Json → Bool
  | .null, .null => true
  | .bool a, .bool b => a == b
  | .num a, .num b => a == b
  | .str a, .str b => a == b
  | .arr as, .arr bs => beqItems as bs
  | .obj as, .obj bs => beqEntries as bs
  | _, _ => false

def beqItems : List Json → List Json → Bool
  | [], [] => true
  | a :: as, b :: bs => beq a b && beqItems as bs
  | _, _ => false

def beqEntries : List (String × Json) → List (String × Json) → Bool
  | [], [] => true
  | (k, a) :: as, (l, b) :: bs => k == l && (beq a b && beqEntries as bs)
  | _, _ => false

end

mutual

theorem beq_iff : (a b : Json) → (beq a b = true ↔ a = b)
  | .null, b | .bool _, b | .num _, b | .str _, b => by cases b <;> simp [beq]
  | .arr as, b => by cases b <;> simp [beq, beqItems_iff as]
  | .obj as, b => by cases b <;> simp [beq, beqEntries_iff as]

theorem beqItems_iff : (as bs : List Json) → (beqItems as bs = true ↔ as = bs)
  | [], bs => by cases bs <;> simp [beqItems]
  | a :: as, bs => by cases bs <;> simp [beqItems, beq_iff a, beqItems_iff as]

theorem beqEntries_iff : (as bs : List (String × Json)) → (beqEntries as bs = true ↔ as = bs)
  | [], bs => by cases bs <;> simp [beqEntries]
  | (k, a) :: as, bs => by
    cases bs with
    | nil => simp [beqEntries]
    | cons e bs => simp [beqEntries, beq_iff a, beqEntries_iff as, Prod.ext_iff, and_assoc]

end

instance : DecidableEq Json := fun a b => decidable_of_iff _ (beq_iff a b)

end Json

/-! ## Maps -/

namespace Entries

/-- `Map::insert`, which keeps the keys sorted -/
def insert (key : String) (value : Json) : Entries → Entries
  | [] => [(key, value)]
  | (k, v) :: entries =>
    if key = k then (key, value) :: entries
    else if key < k then (key, value) :: (k, v) :: entries
    else (k, v) :: insert key value entries

/-- `Map::get` -/
def get (key : String) : Entries → Option Json
  | [] => none
  | (k, v) :: entries => if k = key then some v else get key entries

/-- `Map::contains_key` -/
def contains (key : String) (entries : Entries) : Bool := (get key entries).isSome

/-- `Map::remove` -/
def remove (key : String) (entries : Entries) : Entries := entries.filter fun e => e.1 ≠ key

/-- The map that `json!` builds from the entries it is given. -/
def of (entries : Entries) : Entries := entries.foldl (fun m e => insert e.1 e.2 m) []

@[simp] theorem get_nil (key : String) : get key [] = none := rfl

@[simp] theorem get_insert (key key' : String) (value : Json) (entries : Entries) :
    get key' (insert key value entries) = if key = key' then some value else get key' entries := by
  induction entries with
  | nil => simp [insert, get]
  | cons e entries ih =>
    obtain ⟨k, v⟩ := e
    unfold insert
    split
    · rename_i h
      subst h
      simp only [get]
      split <;> rfl
    · split
      · simp [get]
      · rename_i hne _
        simp only [get, ih]
        by_cases hk : k = key'
        · simp [hk, show key ≠ key' from hk ▸ hne]
        · simp [hk]

@[simp] theorem get_remove (key key' : String) (entries : Entries) :
    get key' (remove key entries) = if key = key' then none else get key' entries := by
  induction entries with
  | nil => simp [remove, get]
  | cons e entries ih =>
    obtain ⟨k, v⟩ := e
    simp only [remove, List.filter_cons, get] at ih ⊢
    by_cases hk : k = key
    · by_cases hkey : key = key'
      · simpa [hk, hkey] using ih
      · simpa [hk, hkey] using ih
    · by_cases hkey : k = key'
      · subst hkey
        simp [hk, get, Ne.symm hk]
      · simpa [hk, get, hkey] using ih

end Entries

/-- `json!({ .. })` -/
def Json.object (entries : Entries) : Json := .obj (Entries.of entries)

example : Json.object [("type", .str "array"), ("items", .null)] =
    .obj [("items", .null), ("type", .str "array")] := by decide +kernel

end OasRs
