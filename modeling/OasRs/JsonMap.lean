import OasRs.Json
import Mathlib.Data.String.Basic

/-!
# Sorted Maps

The maps of `serde_json` keep their keys sorted, so what a map contains determines it.

## Overview

- `Entries.Sorted`, `Sorted.insert`, `Sorted.foldl`: maps that are filled from a list are sorted
- `Entries.ext`: sorted maps with the same values are equal
- `Entries.get_foldl`: what a map contains that is filled from a list
-/

namespace OasRs

namespace Entries

/-- The keys are sorted. -/
def Sorted (entries : Entries) : Prop := entries.Pairwise fun e e' => e.1 < e'.1

theorem mem_insert_key {key : String} {value : Json} {entries : Entries} {e : String × Json}
    (h : e ∈ insert key value entries) : e = (key, value) ∨ e ∈ entries := by
  induction entries with
  | nil => exact .inl (List.mem_singleton.mp h)
  | cons e' entries ih =>
    unfold insert at h
    split at h
    · exact (List.mem_cons.mp h).imp_right (List.mem_cons_of_mem _)
    · split at h
      · exact List.mem_cons.mp h
      · rcases List.mem_cons.mp h with rfl | h
        · exact .inr List.mem_cons_self
        · exact (ih h).imp_right (List.mem_cons_of_mem _)

theorem Sorted.insert {entries : Entries} (h : entries.Sorted) (key : String) (value : Json) :
    (Entries.insert key value entries).Sorted := by
  induction entries with
  | nil => exact List.pairwise_singleton _ _
  | cons e entries ih =>
    obtain ⟨hfirst, hrest⟩ := List.pairwise_cons.mp h
    unfold Entries.insert
    split
    · rename_i hkey
      exact List.pairwise_cons.mpr ⟨fun e' he' => hkey ▸ hfirst e' he', hrest⟩
    · split
      · rename_i hlt
        refine List.pairwise_cons.mpr ⟨fun e' he' => ?_, h⟩
        rcases List.mem_cons.mp he' with rfl | he'
        · exact hlt
        · exact hlt.trans (hfirst e' he')
      · rename_i hne hnlt
        refine List.pairwise_cons.mpr ⟨fun e' he' => ?_, ih hrest⟩
        rcases mem_insert_key he' with rfl | he'
        · exact lt_of_le_of_ne (not_lt.mp hnlt) (Ne.symm hne)
        · exact hfirst e' he'

theorem Sorted.foldl {start : Entries} (h : start.Sorted) (entries : Entries) :
    (entries.foldl (fun m e => Entries.insert e.1 e.2 m) start).Sorted := by
  induction entries generalizing start with
  | nil => exact h
  | cons e entries ih => exact ih (h.insert e.1 e.2)

theorem sorted_nil : Sorted [] := List.Pairwise.nil

/-- A key below all others is not there. -/
theorem get_of_lt {key : String} {entries : Entries} (h : ∀ e ∈ entries, key < e.1) :
    get key entries = none := by
  induction entries with
  | nil => rfl
  | cons e entries ih =>
    rw [get, if_neg (h e List.mem_cons_self).ne', ih fun e' he' => h e' (List.mem_cons_of_mem _ he')]

/-- Sorted maps with the same values are equal. -/
theorem ext {entries entries' : Entries} (h : entries.Sorted) (h' : entries'.Sorted)
    (hget : ∀ key, get key entries = get key entries') : entries = entries' := by
  induction entries generalizing entries' with
  | nil =>
    cases entries' with
    | nil => rfl
    | cons e entries' =>
      have hfirst := hget e.1
      rw [get_nil, get, if_pos rfl] at hfirst
      cases hfirst
  | cons e entries ih =>
    cases entries' with
    | nil =>
      have hfirst := hget e.1
      rw [get_nil, get, if_pos rfl] at hfirst
      cases hfirst
    | cons e' entries' =>
      obtain ⟨hlt, hrest⟩ := List.pairwise_cons.mp h
      obtain ⟨hlt', hrest'⟩ := List.pairwise_cons.mp h'
      -- the least keys are the same
      have hkey : e.1 = e'.1 := by
        rcases lt_trichotomy e.1 e'.1 with hless | heq | hless
        · have hfirst := hget e.1
          rw [get, if_pos rfl, get, if_neg hless.ne',
            get_of_lt fun e'' he'' => hless.trans (hlt' e'' he'')] at hfirst
          cases hfirst
        · exact heq
        · have hfirst := hget e'.1
          rw [get, if_neg hless.ne', get_of_lt fun e'' he'' => hless.trans (hlt e'' he''), get,
            if_pos rfl] at hfirst
          cases hfirst
      have hvalue : e.2 = e'.2 := by
        have hfirst := hget e.1
        rw [get, if_pos rfl, get, if_pos hkey.symm] at hfirst
        exact Option.some.inj hfirst
      rw [Prod.ext hkey hvalue]
      congr 1
      apply ih hrest hrest'
      intro key
      by_cases hleast : e.1 = key
      · rw [get_of_lt fun e'' he'' => hleast ▸ hlt e'' he'',
          get_of_lt fun e'' he'' => hleast ▸ hkey ▸ hlt' e'' he'']
      · have hother := hget key
        rw [get, if_neg hleast, get, if_neg (hkey ▸ hleast)] at hother
        exact hother

/-- A map that is filled from a list holds the last value for each key. -/
theorem get_foldl (key : String) (entries start : Entries) :
    get key (entries.foldl (fun m e => insert e.1 e.2 m) start) =
      (get key entries.reverse).or (get key start) := by
  induction entries generalizing start with
  | nil => rfl
  | cons e entries ih =>
    have happend : ∀ first : Entries, get key (first ++ [e]) =
        (get key first).or (if e.1 = key then some e.2 else none) := by
      intro first
      induction first with
      | nil => rfl
      | cons e' first ihfirst =>
        rw [List.cons_append, get, get]
        split
        · rfl
        · exact ihfirst
    rw [List.foldl_cons, ih, get_insert, List.reverse_cons, happend, Option.or_assoc]
    congr 1
    split <;> rfl

end Entries

end OasRs
