import OasRs.Router
import Mathlib.Data.Fintype.Card
import Mathlib.Data.Nat.Bitwise

/-!
# What the Router Stores and Finds

The abstract view of the router's tables. A registered pattern is a list of
`Piece`s (a literal, or a wildcard for a capture), the arena of the trie is a map
from patterns to route sets, and a lookup chooses the preferred pattern among those
with routes.

## Main results

- `RouteSet.Lists.insert`: a route set lists the routes of its place
- `routesOf_insert`: inserting changes the route set of one pattern
- `find_some`, `find_none`: the backtracking search finds the preferred pattern
-/

namespace OasRs

open Lib Lib.Preference

/-- The patterns of the router. -/
abbrev Pattern : Type := List (Piece Text)

/-- What a template segment accepts. -/
def Segment.piece : Segment → Piece Text
  | .static value => .literal value
  | .capture _ => .wild

/-- The pattern of a template. -/
def patternOf (segments : List Segment) : Pattern := segments.map Segment.piece

/-- How many captures a pattern has. -/
def wilds (p : Pattern) : ℕ := p.count .wild

/-! ## Route sets -/

namespace RouteSet

/-- Whether a method is in the mask. -/
def allows (set : RouteSet) (method : Method) : Bool :=
  match methodSlot method with
  | some slot => set.hasSlot slot
  | none => false

theorem insert_ok {set set' : RouteSet} {method : Method} {route : ℕ}
    (h : set.insert method route = .ok set') :
    ∃ slot, methodSlot method = some slot ∧ route ≤ u32Max ∧
      set.routes.get slot = RouteId.none ∧
      set' = { routes := set.routes.set slot.val route slot.isLt
               methodMask := set.methodMask ||| 1 <<< slot.val } := by
  unfold insert at h
  split at h
  · cases h
  · rename_i slot hslot
    simp only [RouteId.new, bind_eq_ok, check_eq_ok, pure_eq_ok, decide_eq_true_eq] at h
    obtain ⟨_, ⟨_, hroute, rfl⟩, _, hfree, rfl⟩ := h
    have hslotFree : set.routes[slot.val] = RouteId.none := by simpa using hfree
    exact ⟨slot, hslot, hroute, hslotFree, rfl⟩

/-- An insertion changes the route of its own method. The last identifier there is
    cannot be told from a free slot. -/
theorem route_insert {set set' : RouteSet} {method : Method} {route : ℕ}
    (h : set.insert method route = .ok set') (m : Method) :
    set'.route m = if m = method then (if route = RouteId.none then none else some route)
      else set.route m := by
  obtain ⟨slot, hslot, -, -, rfl⟩ := insert_ok h
  simp only [RouteSet.route]
  cases hm : methodSlot m with
  | none =>
    have : m ≠ method := fun he => by simp [he, hslot] at hm
    simp [this]
  | some slot' =>
    by_cases he : m = method
    · subst he
      rw [hslot, Option.some.injEq] at hm
      subst hm
      simp only [Option.bind_some, if_true]
      by_cases hr : route = RouteId.none <;> simp [hr]
    · have hne : slot ≠ slot' := fun hs => he (methodSlot_inj hm (hs ▸ hslot))
      have hget : (set.routes.set slot.val route)[slot'.val] = set.routes[slot'.val] :=
        Vector.getElem_set_ne _ _ (fun hv => hne (Fin.ext hv))
      simp [he, hget]

theorem route_of_insert {set set' : RouteSet} {method : Method} {route : ℕ}
    (h : set.insert method route = .ok set') : set.route method = none := by
  obtain ⟨slot, hslot, -, hfree, -⟩ := insert_ok h
  have hslotFree : set.routes[slot.val] = RouteId.none := hfree
  simp [RouteSet.route, hslot, hslotFree]

theorem hasSlot_eq (set : RouteSet) (slot : ℕ) : set.hasSlot slot = set.methodMask.testBit slot := by
  rw [hasSlot, Nat.one_shiftLeft, Nat.and_two_pow]
  cases set.methodMask.testBit slot <;> simp

theorem hasSlot_insert {set set' : RouteSet} {method : Method} {route : ℕ} {slot : Fin 7}
    (h : set.insert method route = .ok set') (hslot : methodSlot method = some slot) (i : ℕ) :
    set'.hasSlot i = (decide (i = slot.val) || set.hasSlot i) := by
  obtain ⟨slot', hslot', -, -, rfl⟩ := insert_ok h
  rw [hslot, Option.some.injEq] at hslot'
  subst hslot'
  simp only [hasSlot_eq, Nat.testBit_or, Nat.one_shiftLeft, Nat.testBit_two_pow]
  rw [Bool.or_comm]
  simp [eq_comm]

theorem allows_insert {set set' : RouteSet} {method : Method} {route : ℕ}
    (h : set.insert method route = .ok set') (m : Method) :
    set'.allows m = (decide (m = method) || set.allows m) := by
  obtain ⟨slot, hslot, -⟩ := insert_ok h
  unfold allows
  cases hm : methodSlot m with
  | none =>
    have : m ≠ method := fun he => by simp [he, hslot] at hm
    simp [this]
  | some slot' =>
    simp only
    rw [hasSlot_insert h hslot]
    have : slot'.val = slot.val ↔ m = method :=
      ⟨fun hv => methodSlot_inj hm (Fin.ext hv ▸ hslot), fun he => by
        rw [he, hslot, Option.some.injEq] at hm
        rw [hm]⟩
    simp [this]

theorem isEmpty_insert {set set' : RouteSet} {method : Method} {route : ℕ}
    (h : set.insert method route = .ok set') : set'.isEmpty = false := by
  obtain ⟨slot, hslot, -⟩ := insert_ok h
  have hbit : set'.methodMask.testBit slot.val = true := by
    rw [← hasSlot_eq, hasSlot_insert h hslot]
    simp
  rw [isEmpty, beq_eq_false_iff_ne]
  rintro hzero
  rw [hzero, Nat.zero_testBit] at hbit
  cases hbit

/-- A route set lists the routes of `place`, given all routes with their methods and
    places, in registration order. -/
structure Lists {κ : Type} (set : RouteSet) (entries : List (Method × κ)) (place : κ) : Prop where
  route_iff : ∀ m (id : ℕ), set.route m = some id ↔
    entries[id]? = some (m, place) ∧ id ≠ RouteId.none
  allows_iff : ∀ m, set.allows m = true ↔ (m, place) ∈ entries
  isEmpty_iff : set.isEmpty = true ↔ ∀ m, (m, place) ∉ entries

theorem lists_empty {κ : Type} (place : κ) : empty.Lists [] place where
  route_iff m id := by
    have : empty.route m = none := by
      unfold RouteSet.route empty
      cases methodSlot m <;> simp
    simp [this]
  allows_iff m := by
    have : empty.allows m = false := by
      unfold allows
      cases methodSlot m with
      | none => rfl
      | some slot => simp [hasSlot, empty]
    simp [this]
  isEmpty_iff := by simp [isEmpty, empty]

/-- A method that can be inserted has no route at the place yet, except for one with the
    last identifier. -/
theorem Lists.not_mem_of_insert {κ : Type} {set set' : RouteSet} {entries : List (Method × κ)}
    {place : κ} {method : Method} {route : ℕ} (hset : set.Lists entries place)
    (h : set.insert method route = .ok set') {id : ℕ} (hid : id ≠ RouteId.none) :
    entries[id]? ≠ some (method, place) := fun hentry => by
  have := (hset.route_iff method id).mpr ⟨hentry, hid⟩
  rw [route_of_insert h] at this
  cases this

/-- The place of a new route lists it too. -/
theorem Lists.insert {κ : Type} {set set' : RouteSet} {entries : List (Method × κ)} {place : κ}
    {method : Method} (hset : set.Lists entries place)
    (h : set.insert method entries.length = .ok set') :
    set'.Lists (entries ++ [(method, place)]) place where
  route_iff m id := by
    rw [route_insert h]
    by_cases hid : id = entries.length
    · -- the new identifier
      subst hid
      rw [List.getElem?_concat_length]
      by_cases hm : m = method
      · by_cases hn : entries.length = RouteId.none <;> simp [hm, hn]
      · have : set.route m ≠ some entries.length := fun hr => by
          have := ((hset.route_iff m _).mp hr).1
          simp at this
        simp [hm, Ne.symm hm, this]
    · -- an old identifier is found where it was
      have hold : (entries ++ [(method, place)])[id]? = entries[id]? := by
        by_cases hlt : id < entries.length
        · exact List.getElem?_append_left hlt
        · rw [List.getElem?_eq_none (by simp; omega), List.getElem?_eq_none (by omega)]
      rw [hold]
      by_cases hm : m = method
      · -- the slot was free, so the method had no route here before
        have hnone : set.route m = none := hm ▸ route_of_insert h
        have hiff := hset.route_iff m id
        simp only [hnone, reduceCtorEq, false_iff] at hiff
        simp only [hm, if_true] at hiff ⊢
        split
        · simpa using hiff
        · simp [Ne.symm hid, hiff]
      · rw [if_neg hm]
        exact hset.route_iff m id
  allows_iff m := by
    rw [allows_insert h]
    simp [hset.allows_iff, or_comm]
  isEmpty_iff := by
    rw [isEmpty_insert h]
    simp only [Bool.false_eq_true, false_iff, not_forall, not_not]
    exact ⟨method, by simp⟩

/-- Other places are not affected. -/
theorem Lists.append_of_ne {κ : Type} {set : RouteSet} {entries : List (Method × κ)}
    {place other : κ} {method : Method} (hset : set.Lists entries place) (hne : other ≠ place) :
    set.Lists (entries ++ [(method, other)]) place where
  route_iff m id := by
    rw [hset.route_iff, List.getElem?_append]
    split
    · rfl
    · rename_i hge
      have hnone : entries[id]? = none := List.getElem?_eq_none (by omega)
      rw [hnone, List.getElem?_singleton]
      split <;> simp [hne]
  allows_iff m := by
    rw [hset.allows_iff]
    simp [Ne.symm hne]
  isEmpty_iff := by
    rw [hset.isEmpty_iff]
    simp [Ne.symm hne]

end RouteSet

/-! ## The trie as a map from patterns to route sets -/

namespace DynamicRouteTrie

/-- The child for a piece of a pattern. -/
def step (trie : DynamicRouteTrie) (index : NodeId) : Piece Text → Option NodeId
  | .literal value => (trie.node index).staticChildren.lookup value
  | .wild => (trie.node index).captureChild

theorem child_eq (trie : DynamicRouteTrie) (index : NodeId) (segment : Segment) :
    trie.child index segment = trie.step index segment.piece := by
  cases segment <;> rfl

/-- The node that a pattern leads to. -/
def walk (trie : DynamicRouteTrie) (index : NodeId) : Pattern → Option NodeId
  | [] => some index
  | piece :: p => (trie.step index piece).bind fun child => trie.walk child p

/-- The route set of a pattern. -/
def routesOf (trie : DynamicRouteTrie) (p : Pattern) : RouteSet :=
  ((trie.walk 0 p).map fun index => (trie.node index).routes).getD .empty

/-- The arena is a tree: a node is reached along one path, no index is out of range,
    and every index fits in a `NodeId`. -/
structure WellFormed (trie : DynamicRouteTrie) : Prop where
  length_le : trie.nodes.length ≤ u32Max + 1
  inRange : ∀ {p i}, trie.walk 0 p = some i → i < trie.nodes.length
  unique : ∀ {p q i}, trie.walk 0 p = some i → trie.walk 0 q = some i → p = q

theorem walk_append (trie : DynamicRouteTrie) (index : NodeId) (p q : Pattern) :
    trie.walk index (p ++ q) = (trie.walk index p).bind fun i => trie.walk i q := by
  induction p generalizing index with
  | nil => rfl
  | cons piece p ih =>
    simp only [List.cons_append, walk, Option.bind_assoc]
    congr 1
    funext child
    exact ih child

theorem walk_concat (trie : DynamicRouteTrie) (index : NodeId) (p : Pattern) (piece : Piece Text) :
    trie.walk index (p ++ [piece]) = (trie.walk index p).bind fun i => trie.step i piece := by
  rw [walk_append]
  simp [walk]

/-! ### Nodes after an update -/

theorem node_setNode (trie : DynamicRouteTrie) (index : NodeId) (node : DynamicRouteNode)
    (i : NodeId) : (trie.setNode index node).node i =
      if i = index ∧ index < trie.nodes.length then node else trie.node i := by
  unfold DynamicRouteTrie.node setNode
  rw [List.getD_eq_getElem?_getD, List.getElem?_set, List.getD_eq_getElem?_getD]
  by_cases hi : index = i
  · subst hi
    by_cases hlt : index < trie.nodes.length <;> simp [hlt]
  · simp [hi, Ne.symm hi]

theorem node_push (trie : DynamicRouteTrie) (i : NodeId) :
    DynamicRouteTrie.node { nodes := trie.nodes ++ [.empty] } i = trie.node i := by
  unfold DynamicRouteTrie.node
  simp only [List.getD_eq_getElem?_getD, List.getElem?_append]
  split
  · rfl
  · rename_i hge
    rw [List.getElem?_eq_none (l := trie.nodes) (by omega), List.getElem?_singleton]
    split <;> rfl

theorem length_addChild (trie : DynamicRouteTrie) (index : NodeId) (segment : Segment) :
    (trie.addChild index segment).nodes.length = trie.nodes.length + 1 := by
  cases segment <;> simp [addChild, setNode]

/-- Adding a child keeps every route set. -/
theorem routes_addChild (trie : DynamicRouteTrie) (index : NodeId) (segment : Segment)
    (i : NodeId) : ((trie.addChild index segment).node i).routes = (trie.node i).routes := by
  cases segment <;> (simp only [addChild, node_setNode, node_push]; split)
  all_goals first | rfl | (rename_i h; rw [h.1])

/-- Adding a child adds one edge. -/
theorem step_addChild (trie : DynamicRouteTrie) {index : NodeId} (segment : Segment)
    (hindex : index < trie.nodes.length) (i : NodeId) (piece : Piece Text) :
    (trie.addChild index segment).step i piece =
      if i = index ∧ piece = segment.piece then some trie.nodes.length
      else trie.step i piece := by
  have hlt : index < trie.nodes.length + 1 := Nat.lt_succ_of_lt hindex
  by_cases hi : i = index
  · subst hi
    cases segment with
    | static value =>
      cases piece with
      | literal other =>
        by_cases hv : other = value
        · subst hv
          simp [addChild, step, node_setNode, node_push, hlt, Segment.piece]
        · simp [addChild, step, node_setNode, node_push, hlt, Segment.piece, hv,
            AList.lookup_insert_ne hv]
      | wild => simp [addChild, step, node_setNode, node_push, hlt, Segment.piece]
    | capture name =>
      cases piece with
      | literal other => simp [addChild, step, node_setNode, node_push, hlt, Segment.piece]
      | wild => simp [addChild, step, node_setNode, node_push, hlt, Segment.piece]
  · cases segment <;> cases piece <;> simp [addChild, step, node_setNode, node_push, hi]

/-- The fresh node has no children. -/
theorem step_fresh (trie : DynamicRouteTrie) (piece : Piece Text) {i : NodeId}
    (hi : trie.nodes.length ≤ i) : trie.step i piece = none := by
  have hnode : trie.node i = .empty := by
    rw [node, List.getD_eq_getElem?_getD, List.getElem?_eq_none hi]
    rfl
  cases piece <;> simp [step, hnode, DynamicRouteNode.empty]

/-! ### Insertion -/

theorem wellFormed_empty : empty.WellFormed := by
  have hwalk : ∀ {p i}, empty.walk 0 p = some i → p = [] ∧ i = 0 := by
    intro p i h
    cases p with
    | nil => exact ⟨rfl, (Option.some.inj h).symm⟩
    | cons piece p => cases piece <;> simp [walk, step, node, empty, DynamicRouteNode.empty] at h
  constructor
  · exact Nat.succ_le_succ (Nat.zero_le _)
  · intro p i h
    rw [(hwalk h).2]
    exact Nat.zero_lt_one
  · intro p q i hp hq
    rw [(hwalk hp).1, (hwalk hq).1]

theorem routesOf_empty (p : Pattern) : empty.routesOf p = .empty := by
  cases p with
  | nil => rfl
  | cons piece p =>
    cases piece <;> simp [routesOf, walk, step, node, empty, DynamicRouteNode.empty]

theorem routesOf_eq {trie : DynamicRouteTrie} {p : Pattern} {i : NodeId}
    (h : trie.walk 0 p = some i) : trie.routesOf p = (trie.node i).routes := by
  simp [routesOf, h]

section Insert

variable {trie : DynamicRouteTrie} {pre : Pattern} {index : NodeId} {segment : Segment}

/-- A new child is reached along its own path, every other node as before. -/
theorem walk_addChild (hwf : trie.WellFormed) (hpre : trie.walk 0 pre = some index)
    (hnone : trie.step index segment.piece = none) (p : Pattern) :
    (trie.addChild index segment).walk 0 p =
      if p = pre ++ [segment.piece] then some trie.nodes.length else trie.walk 0 p := by
  have hindex : index < trie.nodes.length := hwf.inRange hpre
  -- before, the walk to the new child failed
  have hnew : trie.walk 0 (pre ++ [segment.piece]) = none := by
    rw [walk_concat, hpre, Option.bind_some, hnone]
  induction p using List.reverseRecOn with
  | nil => simp [walk]
  | append_singleton p piece ih =>
    rw [walk_concat, walk_concat, ih]
    by_cases hp : p = pre ++ [segment.piece]
    · -- below the new child there is nothing yet
      have hlen : p ++ [piece] ≠ pre ++ [segment.piece] := fun h => by
        have := congrArg List.length h
        rw [hp] at this
        simp at this
      rw [if_pos hp, if_neg hlen, hp, hnew, Option.bind_some, Option.bind_none,
        step_addChild trie segment hindex, if_neg fun h => Nat.ne_of_gt hindex h.1]
      exact step_fresh trie piece le_rfl
    · rw [if_neg hp]
      cases hw : trie.walk 0 p with
      | none =>
        -- the walk fails before its last piece, so it does not end at the child
        have : p ++ [piece] ≠ pre ++ [segment.piece] := fun h => by
          rw [(List.append_inj' h rfl).1, hpre] at hw
          cases hw
        simp [this]
      | some i =>
        -- walks are unique, so only this one goes through the new edge
        have hiff : (i = index ∧ piece = segment.piece) ↔
            p ++ [piece] = pre ++ [segment.piece] := by
          constructor
          · rintro ⟨rfl, rfl⟩
            rw [hwf.unique hw hpre]
          · intro h
            obtain ⟨rfl, h⟩ := List.append_inj' h rfl
            rw [hw, Option.some.injEq] at hpre
            exact ⟨hpre, by simpa using h⟩
        rw [Option.bind_some, Option.bind_some, step_addChild trie segment hindex]
        simp only [hiff]

theorem WellFormed.addChild (hwf : trie.WellFormed) (hpre : trie.walk 0 pre = some index)
    (hnone : trie.step index segment.piece = none) (hfresh : trie.nodes.length ≤ u32Max) :
    (trie.addChild index segment).WellFormed := by
  have hwalk := walk_addChild hwf hpre hnone
  constructor
  · rw [length_addChild]
    exact Nat.succ_le_succ hfresh
  · intro p i h
    rw [length_addChild]
    rw [hwalk] at h
    split at h
    · exact Option.some.inj h ▸ Nat.lt_succ_self _
    · exact Nat.lt_succ_of_lt (hwf.inRange h)
  · intro p q i hp hq
    rw [hwalk] at hp hq
    split at hp <;> split at hq
    · rename_i hp' hq'
      rw [hp', hq']
    · exact absurd (Option.some.inj hp ▸ hwf.inRange hq) (lt_irrefl _)
    · exact absurd (Option.some.inj hq ▸ hwf.inRange hp) (lt_irrefl _)
    · exact hwf.unique hp hq

theorem routesOf_addChild (hwf : trie.WellFormed) (hpre : trie.walk 0 pre = some index)
    (hnone : trie.step index segment.piece = none) (p : Pattern) :
    (trie.addChild index segment).routesOf p = trie.routesOf p := by
  rw [routesOf, walk_addChild hwf hpre hnone]
  split
  · rename_i hp
    have hold : trie.walk 0 p = none := by rw [hp, walk_concat, hpre, Option.bind_some, hnone]
    have hfresh : (trie.node trie.nodes.length).routes = .empty := by
      simp [node, DynamicRouteNode.empty]
    simp [routesOf, hold, routes_addChild, hfresh]
  · simp [routesOf, routes_addChild]

/-- A turn of the loop goes down one piece and keeps every route set. -/
theorem descend_spec (hwf : trie.WellFormed) (hpre : trie.walk 0 pre = some index)
    {trie' : DynamicRouteTrie} {child : NodeId}
    (h : trie.descend index segment = .ok (trie', child)) :
    trie'.WellFormed ∧ trie'.walk 0 (pre ++ [segment.piece]) = some child ∧
      trie'.nodes.length ≤ trie.nodes.length + 1 ∧ ∀ p, trie'.routesOf p = trie.routesOf p := by
  unfold descend at h
  split at h
  · rename_i found hchild
    rw [child_eq] at hchild
    simp only [Except.ok.injEq, Prod.mk.injEq] at h
    obtain ⟨rfl, rfl⟩ := h
    refine ⟨hwf, ?_, Nat.le_succ _, fun _ => rfl⟩
    rw [walk_concat, hpre, Option.bind_some, hchild]
  · rename_i hchild
    rw [child_eq] at hchild
    simp only [NodeId.new, bind_eq_ok, check_eq_ok, pure_eq_ok, Prod.mk.injEq,
      decide_eq_true_eq] at h
    obtain ⟨_, ⟨_, hfresh, rfl⟩, rfl, rfl⟩ := h
    refine ⟨hwf.addChild hpre hchild hfresh, ?_, (length_addChild _ _ _).le,
      routesOf_addChild hwf hpre hchild⟩
    rw [walk_addChild hwf hpre hchild, if_pos rfl]

/-- Replacing the route set of a node. -/
theorem setRoutes_spec (hwf : trie.WellFormed) (hpre : trie.walk 0 pre = some index)
    (routes : RouteSet) :
    (trie.setNode index { trie.node index with routes }).WellFormed ∧
      ∀ p, (trie.setNode index { trie.node index with routes }).routesOf p =
        if p = pre then routes else trie.routesOf p := by
  have hindex := hwf.inRange hpre
  -- the edges are kept, so every walk is
  have hstep : ∀ i piece, (trie.setNode index { trie.node index with routes }).step i piece =
      trie.step i piece := by
    intro i piece
    by_cases hi : i = index
    · subst hi
      cases piece <;> simp [step, node_setNode, hindex]
    · cases piece <;> simp [step, node_setNode, hi]
  have hwalk : ∀ p i, (trie.setNode index { trie.node index with routes }).walk i p =
      trie.walk i p := by
    intro p
    induction p with
    | nil => exact fun _ => rfl
    | cons piece p ih =>
      intro i
      simp only [walk, hstep, ih]
  refine ⟨⟨by simpa [setNode] using hwf.length_le, ?_, ?_⟩, ?_⟩
  · intro p i h
    rw [hwalk] at h
    simpa [setNode] using hwf.inRange h
  · intro p q i hp hq
    rw [hwalk] at hp hq
    exact hwf.unique hp hq
  · intro p
    rw [routesOf, hwalk]
    cases hw : trie.walk 0 p with
    | none =>
      have : p ≠ pre := fun hp => by simp [hp, hpre] at hw
      simp [routesOf, hw, this]
    | some i =>
      -- only the walk of `pre` ends at the node, since walks are unique
      have hiff : i = index ↔ p = pre := by
        constructor
        · rintro rfl
          exact hwf.unique hw hpre
        · rintro rfl
          simpa [hw] using hpre
      by_cases hp : p = pre
      · simp [node_setNode, hiff.mpr hp, hindex, hp]
      · simp [routesOf, hw, node_setNode, mt hiff.mp hp, hp]

end Insert

theorem insertAt_spec {segments : List Segment} {trie trie' : DynamicRouteTrie} (pre : Pattern)
    {index : NodeId} {method : Method} {route : ℕ} (hwf : trie.WellFormed)
    (hpre : trie.walk 0 pre = some index)
    (h : trie.insertAt index method route segments = .ok trie') :
    trie'.WellFormed ∧ ∃ set,
      (trie.routesOf (pre ++ patternOf segments)).insert method route = .ok set ∧
      ∀ p, trie'.routesOf p =
        if p = pre ++ patternOf segments then set else trie.routesOf p := by
  induction segments generalizing trie pre index with
  | nil =>
    simp only [insertAt, bind_eq_ok, pure_eq_ok] at h
    obtain ⟨routes, hroutes, rfl⟩ := h
    obtain ⟨hwf', hset⟩ := setRoutes_spec hwf hpre routes
    refine ⟨hwf', routes, ?_, ?_⟩
    · simpa [patternOf, routesOf_eq hpre] using hroutes
    · simpa [patternOf] using hset
  | cons segment segments ih =>
    simp only [insertAt, bind_eq_ok] at h
    obtain ⟨⟨trie₁, child⟩, hdescend, h⟩ := h
    obtain ⟨hwf₁, hchild, -, hroutes⟩ := descend_spec hwf hpre hdescend
    obtain ⟨hwf', set, hset, hfinal⟩ := ih _ hwf₁ hchild h
    have hpattern : pre ++ patternOf (segment :: segments) =
        pre ++ [segment.piece] ++ patternOf segments := by
      simp [patternOf]
    rw [hpattern]
    refine ⟨hwf', set, ?_, ?_⟩
    · rw [← hroutes]
      exact hset
    · intro p
      rw [hfinal, hroutes]

/-- Inserting changes the route set of one pattern. -/
theorem routesOf_insert {segments : List Segment} {trie trie' : DynamicRouteTrie}
    {method : Method} {route : ℕ} (hwf : trie.WellFormed)
    (h : trie.insert segments method route = .ok trie') :
    trie'.WellFormed ∧ ∃ set, (trie.routesOf (patternOf segments)).insert method route = .ok set ∧
      ∀ p, trie'.routesOf p = if p = patternOf segments then set else trie.routesOf p :=
  insertAt_spec [] hwf rfl h

/-- A turn of the loop returns as long as a fresh node has an index. -/
theorem descend_ok {trie : DynamicRouteTrie} (index : NodeId) (segment : Segment)
    (hfresh : trie.nodes.length ≤ u32Max) : ∃ next, trie.descend index segment = .ok next := by
  unfold descend
  cases hchild : trie.child index segment with
  | some child => exact ⟨_, rfl⟩
  | none =>
    have hnew : NodeId.new trie.nodes.length = .ok trie.nodes.length := by
      simp only [NodeId.new, bind_eq_ok, check_eq_ok, pure_eq_ok, decide_eq_true_eq]
      exact ⟨(), hfresh, trivial⟩
    exact ⟨(trie.addChild index segment, trie.nodes.length), by rw [hnew]; rfl⟩

/-- An insertion returns if there is room for the nodes, and the route set of the pattern
    takes the route. -/
theorem insertAt_ok {segments : List Segment} {trie : DynamicRouteTrie} (pre : Pattern)
    {index : NodeId} {method : Method} {route : ℕ} {set : RouteSet} (hwf : trie.WellFormed)
    (hpre : trie.walk 0 pre = some index)
    (hroom : trie.nodes.length + segments.length ≤ u32Max + 1)
    (hset : (trie.routesOf (pre ++ patternOf segments)).insert method route = .ok set) :
    ∃ trie', trie.insertAt index method route segments = .ok trie' := by
  induction segments generalizing trie pre index with
  | nil =>
    rw [patternOf, List.map_nil, List.append_nil, routesOf_eq hpre] at hset
    exact ⟨_, by rw [insertAt, hset]; rfl⟩
  | cons segment segments ih =>
    rw [List.length_cons] at hroom
    obtain ⟨⟨trie₁, child⟩, hdescend⟩ :=
      descend_ok index segment (show trie.nodes.length ≤ u32Max by omega)
    obtain ⟨hwf₁, hchild, hlength, hroutes⟩ := descend_spec hwf hpre hdescend
    have hpattern : pre ++ patternOf (segment :: segments) =
        pre ++ [segment.piece] ++ patternOf segments := by
      simp [patternOf]
    rw [hpattern, ← hroutes] at hset
    obtain ⟨trie', h⟩ := ih _ hwf₁ hchild (by omega) hset
    exact ⟨trie', by rw [insertAt, hdescend]; exact h⟩

/-- Every node on the way to a pattern takes a place in the arena. -/
theorem WellFormed.length_lt {trie : DynamicRouteTrie} (hwf : trie.WellFormed) {p : Pattern}
    {i : NodeId} (h : trie.walk 0 p = some i) : p.length < trie.nodes.length := by
  have hnode : ∀ k, ∃ j, trie.walk 0 (p.take k) = some j := by
    intro k
    rw [← List.take_append_drop k p, walk_append] at h
    obtain ⟨j, hj, -⟩ := Option.bind_eq_some_iff.mp h
    exact ⟨j, hj⟩
  choose node hwalk using hnode
  let place (k : Fin (p.length + 1)) : Fin trie.nodes.length := ⟨node k, hwf.inRange (hwalk k)⟩
  have hinj : Function.Injective place := by
    intro k l hkl
    have hpath := hwalk k
    rw [show node k = node l from congrArg Fin.val hkl] at hpath
    have hlength := congrArg List.length (hwf.unique hpath (hwalk l))
    rw [List.length_take, List.length_take] at hlength
    apply Fin.ext
    omega
  simpa [Nat.succ_le_iff] using Fintype.card_le_of_injective place hinj

/-! ### Search -/

/-- The patterns below a node that have routes. -/
def patternsFrom (trie : DynamicRouteTrie) (index : NodeId) : Set Pattern :=
  { p | ∃ i, trie.walk index p = some i ∧ (trie.node i).routes.isEmpty = false }

theorem deriv_patternsFrom {trie : DynamicRouteTrie} {index child : NodeId} {piece : Piece Text}
    (h : trie.step index piece = some child) :
    Preference.deriv (trie.patternsFrom index) piece = trie.patternsFrom child := by
  ext p
  simp [Preference.deriv, patternsFrom, walk, h]

theorem deriv_patternsFrom_none {trie : DynamicRouteTrie} {index : NodeId} {piece : Piece Text}
    (h : trie.step index piece = none) : Preference.deriv (trie.patternsFrom index) piece = ∅ := by
  ext p
  simp [Preference.deriv, patternsFrom, walk, h]

/-- The parts that a pattern captures. -/
def captured : Pattern → List PathPart → List PathPart
  | .wild :: p, part :: parts => part :: captured p parts
  | .literal _ :: p, _ :: parts => captured p parts
  | _, _ => []

/-- `find_node` finds the preferred pattern, its node and its captures, as long as the
    patterns of the trie keep to the capture limit. -/
theorem findNode_spec (trie : DynamicRouteTrie) (parts : List PathPart) (index : NodeId)
    (captures : CaptureSet)
    (hcap : ∀ p ∈ trie.patternsFrom index, captures.count + wilds p ≤ maxCaptureParams) :
    match trie.findNode index parts captures with
    | some (i, found) => ∃ p,
        IsPreferred validPercentEncoding (trie.patternsFrom index) (parts.map PathPart.value) p ∧
        trie.walk index p = some i ∧ found = (captured p parts).foldl CaptureSet.push captures
    | none => ∀ p ∈ trie.patternsFrom index,
        ¬ Accepts validPercentEncoding p (parts.map PathPart.value) := by
  induction parts generalizing index captures with
  | nil =>
    rw [findNode]
    -- at the end of the path, the node itself must have routes
    by_cases hempty : (trie.node index).routes.isEmpty
    · simp only [hempty]
      rintro p ⟨i, hi, hne⟩ hacc
      rw [List.map_nil, accepts_nil_iff] at hacc
      subst hacc
      simp only [walk, Option.some.injEq] at hi
      rw [← hi, hempty] at hne
      cases hne
    · simp only [hempty]
      refine ⟨[], isPreferred_nil ⟨index, rfl, by simpa using hempty⟩, rfl, rfl⟩
  | cons part parts ih =>
    -- What the literal branch answers, when it is taken.
    have hliteral : match ((trie.node index).staticChildren.lookup part.value).bind
          fun child => trie.findNode child parts captures with
        | some (i, found) => ∃ p, IsPreferred validPercentEncoding
            (Preference.deriv (trie.patternsFrom index) (.literal part.value)) (parts.map PathPart.value) p ∧
            trie.walk index (.literal part.value :: p) = some i ∧
            found = (captured p parts).foldl CaptureSet.push captures
        | none => ∀ p ∈ Preference.deriv (trie.patternsFrom index) (.literal part.value),
            ¬ Accepts validPercentEncoding p (parts.map PathPart.value) := by
      cases hchild : (trie.node index).staticChildren.lookup part.value with
      | none =>
        have : Preference.deriv (trie.patternsFrom index) (.literal part.value) = ∅ :=
          deriv_patternsFrom_none hchild
        simp [this]
      | some child =>
        have hderiv : Preference.deriv (trie.patternsFrom index) (.literal part.value) =
          trie.patternsFrom child := deriv_patternsFrom hchild
        have hstep : trie.step index (.literal part.value) = some child := hchild
        have := ih child captures fun p hp => by
          rw [← hderiv] at hp
          simpa [wilds] using hcap _ hp
        rw [Option.bind_some]
        simpa only [hderiv, walk, hstep, Option.bind_some] using this
    rw [findNode]
    cases hfound : ((trie.node index).staticChildren.lookup part.value).bind
        fun child => trie.findNode child parts captures with
    | some found =>
      obtain ⟨i, found⟩ := found
      rw [hfound] at hliteral
      obtain ⟨p, hp, hwalk, hcaptured⟩ := hliteral
      exact ⟨_, hp.literal, hwalk, hcaptured⟩
    | none =>
      rw [hfound] at hliteral
      simp only [List.map_cons]
      -- no literal child accepts the rest, so that a capture may take the segment
      by_cases hvalid : validPercentEncoding part.value = true
      · cases hchild : (trie.node index).captureChild with
        | none =>
          have hderiv : Preference.deriv (trie.patternsFrom index) .wild = ∅ := deriv_patternsFrom_none hchild
          have : ∀ p ∈ trie.patternsFrom index,
              ¬ Accepts validPercentEncoding p (part.value :: parts.map PathPart.value) :=
            not_accepts_cons hliteral fun _ q hq => by simp [hderiv] at hq
          simpa only [Option.bind_none, ite_self] using this
        | some child =>
          have hderiv : Preference.deriv (trie.patternsFrom index) .wild = trie.patternsFrom child :=
            deriv_patternsFrom hchild
          have hstep : trie.step index .wild = some child := hchild
          have hpush : (captures.push part).count = captures.count + 1 := rfl
          have hwild : ∀ p ∈ trie.patternsFrom child,
              captures.count + 1 + wilds p ≤ maxCaptureParams := by
            intro p hp
            rw [← hderiv] at hp
            have := hcap _ hp
            simp only [wilds, List.count_cons_self] at this ⊢
            omega
          -- one more capture, if there is room for it
          by_cases hcount : captures.count < maxCaptureParams
          · have := ih child (captures.push part) hwild
            simp only [hcount, hvalid, decide_true, Bool.and_self, if_true, Option.bind_some]
            split at this
            · obtain ⟨p, hp, hwalk, hcaptured⟩ := this
              rw [← hderiv] at hp
              exact ⟨_, hp.wild hliteral hvalid, by rw [walk, hstep]; exact hwalk, hcaptured⟩
            · exact not_accepts_cons hliteral fun _ => hderiv ▸ this
          · -- no pattern of the trie goes on here
            simp only [hcount, decide_false, Bool.false_and]
            refine not_accepts_cons hliteral fun _ q hq => ?_
            have := hwild q (hderiv ▸ hq)
            omega
      · simp only [hvalid, Bool.and_false]
        exact not_accepts_cons hliteral fun h => absurd h hvalid

/-- The patterns with routes. -/
def patterns (trie : DynamicRouteTrie) : Set Pattern :=
  { p | (trie.routesOf p).isEmpty = false }

theorem patternsFrom_root (trie : DynamicRouteTrie) : trie.patternsFrom 0 = trie.patterns := by
  ext p
  simp only [patternsFrom, patterns, Set.mem_ofPred_eq, routesOf]
  cases trie.walk 0 p with
  | none => simp [RouteSet.isEmpty, RouteSet.empty]
  | some i => simp

/-- All patterns of the trie keep to the capture limit. -/
def WithinLimit (trie : DynamicRouteTrie) : Prop :=
  ∀ p ∈ trie.patterns, wilds p ≤ maxCaptureParams

/-- The captures of a pattern, in order. -/
def capturesOf (p : Pattern) (parts : List PathPart) : CaptureSet :=
  (captured p parts).foldl CaptureSet.push .empty

/-- What the search finds is the preferred pattern. -/
theorem find_some {trie : DynamicRouteTrie} (hlimit : trie.WithinLimit) {path : Text}
    {routes : RouteSet} {captures : CaptureSet} (h : trie.find path = some (routes, captures)) :
    ∃ p, IsPreferred validPercentEncoding trie.patterns (segments path) p ∧
      routes = trie.routesOf p ∧ captures = capturesOf p (partsOf path) := by
  have hspec := findNode_spec trie (partsOf path) 0 .empty fun p hp => by
    rw [patternsFrom_root] at hp
    simpa [CaptureSet.empty] using hlimit p hp
  obtain ⟨⟨i, found⟩, hfound, heq⟩ := Option.map_eq_some_iff.mp h
  rw [Prod.mk.injEq] at heq
  rw [hfound] at hspec
  obtain ⟨p, hp, hwalk, hcaptured⟩ := hspec
  rw [patternsFrom_root, values_partsOf] at hp
  exact ⟨p, hp, heq.1.symm.trans (routesOf_eq hwalk).symm, heq.2.symm.trans hcaptured⟩

/-- The search misses no pattern. -/
theorem find_none {trie : DynamicRouteTrie} (hlimit : trie.WithinLimit) {path : Text}
    (h : trie.find path = none) :
    ∀ p ∈ trie.patterns, ¬ Accepts validPercentEncoding p (segments path) := by
  have hspec := findNode_spec trie (partsOf path) 0 .empty fun p hp => by
    rw [patternsFrom_root] at hp
    simpa [CaptureSet.empty] using hlimit p hp
  rw [Option.map_eq_none_iff.mp h, patternsFrom_root, values_partsOf] at hspec
  exact hspec

/-- The search in one statement. -/
theorem find_eq_some_of_isPreferred {trie : DynamicRouteTrie} (hlimit : trie.WithinLimit)
    {path : Text} {p : Pattern}
    (hp : IsPreferred validPercentEncoding trie.patterns (segments path) p) :
    trie.find path = some (trie.routesOf p, capturesOf p (partsOf path)) := by
  cases hfind : trie.find path with
  | none => exact absurd hp.accepts (find_none hlimit hfind p hp.mem)
  | some found =>
    obtain ⟨q, hq, hroutes, hcaptures⟩ := find_some hlimit hfind
    rw [← hp.unique hq] at hroutes hcaptures
    rw [← hroutes, ← hcaptures]

end DynamicRouteTrie

end OasRs
