import OasRs.Lib.Preference
import OasRs.Lib.Table
import OasRs.Path

/-!
# The Router

A model of `src/router/mod.rs`: method slots, the packed `RouteSet`, capture
ranges, and `DynamicRouteTrie` with its arena of nodes.

## Overview

- `RouteSet.insert`, `RouteSet.route`, `RouteSet.allowedMethods`
- `DynamicRouteTrie.insert`, `DynamicRouteTrie.findNode`
- `resolveRouteSet`: the method is resolved after the path
-/

namespace OasRs

open Lib

/-! ## Methods -/

/-- `http::Method`. Every method without a slot is an `other` (`CONNECT`, `TRACE` and
    extension methods). -/
inductive Method where
  | delete
  | get
  | head
  | options
  | patch
  | post
  | put
  | other (name : Text)
  deriving DecidableEq, Repr

/-- `METHOD_NAMES` -/
def methodNames : List Text :=
  [str "DELETE", str "GET", str "HEAD", str "OPTIONS", str "PATCH", str "POST", str "PUT"]

/-- `method_slot` -/
def methodSlot : Method → Option (Fin 7)
  | .delete => some 0
  | .get => some 1
  | .head => some 2
  | .options => some 3
  | .patch => some 4
  | .post => some 5
  | .put => some 6
  | .other _ => none

/-- The method of a slot. -/
def slotMethod (slot : Fin 7) : Method :=
  #v[.delete, .get, .head, .options, .patch, .post, .put][slot]

theorem methodSlot_eq_some_iff {m : Method} {slot : Fin 7} :
    methodSlot m = some slot ↔ m = slotMethod slot := by
  constructor
  · intro h
    cases m <;> simp only [methodSlot, Option.some.injEq, reduceCtorEq] at h <;> subst h <;> rfl
  · rintro rfl
    revert slot
    decide

/-- Methods with a slot have a slot of their own. -/
theorem methodSlot_inj {m n : Method} {slot : Fin 7} (hm : methodSlot m = some slot)
    (hn : methodSlot n = some slot) : m = n :=
  (methodSlot_eq_some_iff.mp hm).trans (methodSlot_eq_some_iff.mp hn).symm

/-! ## Route identifiers -/

/-- `u32::MAX` -/
def u32Max : ℕ := 2 ^ 32 - 1

/-- `RouteId`: an index into the route plans. -/
abbrev RouteId : Type := ℕ

/-- `RouteId::NONE`: the value of a free slot. -/
def RouteId.none : RouteId := u32Max

/-- `RouteId::new` -/
def RouteId.new (index : ℕ) : Except Panic RouteId := do
  check (index ≤ u32Max) .routeCount
  return index

/-! ## `RouteSet` -/

/-- `RouteSet` -/
structure RouteSet where
  routes : Vector RouteId 7
  /-- the slots in use, as bits -/
  methodMask : ℕ
  deriving DecidableEq

namespace RouteSet

/-- `RouteSet::default` -/
def empty : RouteSet := { routes := Vector.replicate 7 RouteId.none, methodMask := 0 }

/-- `RouteSet::insert` -/
def insert (set : RouteSet) (method : Method) (route : ℕ) : Except Panic RouteSet :=
  match methodSlot method with
  | none => .error .unsupportedMethod
  | some slot => do
    let route ← RouteId.new route
    check (set.routes[slot] == RouteId.none) .duplicatePattern
    return { routes := set.routes.set slot route
             methodMask := set.methodMask ||| 1 <<< slot.val }

/-- `RouteSet::route` -/
def route (set : RouteSet) (method : Method) : Option RouteId :=
  (methodSlot method).bind fun slot =>
    if set.routes[slot] ≠ RouteId.none then some set.routes[slot] else none

/-- Whether the mask has the bit of a slot. -/
def hasSlot (set : RouteSet) (slot : ℕ) : Bool := set.methodMask &&& 1 <<< slot != 0

/-- `RouteSet::allowed_methods` -/
def allowedMethods (set : RouteSet) : Text :=
  methodNames.zipIdx.foldl
    (fun allowed (name, index) =>
      if !set.hasSlot index then allowed
      else if allowed.isEmpty then name else allowed ++ str ", " ++ name) []

/-- `RouteSet::is_empty` -/
def isEmpty (set : RouteSet) : Bool := set.methodMask == 0

end RouteSet

/-! ## Captures -/

/-- `MAX_CAPTURE_PARAMS` -/
def maxCaptureParams : ℕ := 8

/-- `CaptureRange` -/
structure CaptureRange where
  start : ℕ
  stop : ℕ
  deriving DecidableEq, Repr

/-- `CaptureSet`: up to eight ranges, two `u32` packed in a `u64` each. -/
structure CaptureSet where
  packed : Vector ℕ 8
  count : ℕ
  deriving DecidableEq

namespace CaptureSet

/-- `CaptureSet::default` -/
def empty : CaptureSet := { packed := Vector.replicate 8 0, count := 0 }

/-- `CaptureSet::range` -/
def range (captures : CaptureSet) (index : ℕ) : Option CaptureRange :=
  if index < captures.count then
    captures.packed[index]?.map fun packed => { start := packed >>> 32, stop := packed % 2 ^ 32 }
  else none

/-- `CaptureSet::with_capture`. Callers keep `index` below eight. -/
def withCapture (captures : CaptureSet) (index : ℕ) (range : CaptureRange) : CaptureSet where
  packed := captures.packed.setIfInBounds index
    ((range.start % 2 ^ 32) <<< 32 ||| range.stop % 2 ^ 32)
  count := index + 1

/-- The capture of one more part. -/
def push (captures : CaptureSet) (part : PathPart) : CaptureSet :=
  captures.withCapture captures.count { start := part.start, stop := part.stop }

/-- The captured texts of a path, in order. -/
def texts (captures : CaptureSet) (path : Text) : List Text :=
  (List.range captures.count).filterMap fun index =>
    (captures.range index).map fun range => PathParts.slice path range.start range.stop

end CaptureSet

/-! ## `DynamicRouteTrie` -/

/-- `NodeId`: an index into the arena of nodes. -/
abbrev NodeId : Type := ℕ

/-- `NodeId::new` -/
def NodeId.new (index : ℕ) : Except Panic NodeId := do
  check (index ≤ u32Max) .trieNodes
  return index

/-- `DynamicRouteNode` -/
structure DynamicRouteNode where
  staticChildren : Table Text NodeId
  captureChild : Option NodeId
  routes : RouteSet

/-- `DynamicRouteNode::default` -/
def DynamicRouteNode.empty : DynamicRouteNode :=
  { staticChildren := ∅, captureChild := none, routes := .empty }

/-- `DynamicRouteTrie` -/
structure DynamicRouteTrie where
  nodes : List DynamicRouteNode

namespace DynamicRouteTrie

/-- `DynamicRouteTrie::default`: the root alone. -/
def empty : DynamicRouteTrie := { nodes := [.empty] }

/-- `self.nodes[index]`. Indices held by the trie are in range, see `WellFormed`. -/
def node (trie : DynamicRouteTrie) (index : NodeId) : DynamicRouteNode :=
  trie.nodes.getD index .empty

/-- Replace a node. -/
def setNode (trie : DynamicRouteTrie) (index : NodeId) (node : DynamicRouteNode) :
    DynamicRouteTrie :=
  { nodes := trie.nodes.set index node }

/-- A child that exists. -/
def child (trie : DynamicRouteTrie) (index : NodeId) : Segment → Option NodeId
  | .static value => (trie.node index).staticChildren.lookup value
  | .capture _ => (trie.node index).captureChild

/-- Push an empty node and make it a child. -/
def addChild (trie : DynamicRouteTrie) (index : NodeId) (segment : Segment) :
    DynamicRouteTrie :=
  let fresh := trie.nodes.length
  let pushed : DynamicRouteTrie := { nodes := trie.nodes ++ [.empty] }
  let node := pushed.node index
  match segment with
  | .static value => pushed.setNode index
      { node with staticChildren := node.staticChildren.insert value fresh }
  | .capture _ => pushed.setNode index { node with captureChild := some fresh }

/-- One turn of the loop of `insert`: the child for a segment, made if there is none. -/
def descend (trie : DynamicRouteTrie) (index : NodeId) (segment : Segment) :
    Except Panic (DynamicRouteTrie × NodeId) :=
  match trie.child index segment with
  | some child => .ok (trie, child)
  | none => do
    let fresh ← NodeId.new trie.nodes.length
    return (trie.addChild index segment, fresh)

/-- The loop of `insert`, from a node on. -/
def insertAt (trie : DynamicRouteTrie) (index : NodeId) (method : Method) (route : ℕ) :
    List Segment → Except Panic DynamicRouteTrie
  | [] => do
    let routes ← (trie.node index).routes.insert method route
    return trie.setNode index { trie.node index with routes }
  | segment :: segments => do
    let (trie, child) ← trie.descend index segment
    trie.insertAt child method route segments

/-- `DynamicRouteTrie::insert` -/
def insert (trie : DynamicRouteTrie) (segments : List Segment) (method : Method) (route : ℕ) :
    Except Panic DynamicRouteTrie :=
  trie.insertAt 0 method route segments

/-- `DynamicRouteTrie::find_node`, on the parts that are left. -/
def findNode (trie : DynamicRouteTrie) (index : NodeId) :
    List PathPart → CaptureSet → Option (NodeId × CaptureSet)
  | [], captures => if !(trie.node index).routes.isEmpty then some (index, captures) else none
  | part :: parts, captures =>
    -- Static branches have precedence over captures, but the capture branch remains
    -- available if the static branch fails deeper down.
    match (trie.node index).staticChildren.lookup part.value |>.bind
        fun child => trie.findNode child parts captures with
    | some found => some found
    | none =>
      if captures.count < maxCaptureParams && validPercentEncoding part.value then
        (trie.node index).captureChild.bind fun child =>
          trie.findNode child parts (captures.push part)
      else none

/-- `DynamicRouteTrie::find` -/
def find (trie : DynamicRouteTrie) (path : Text) : Option (RouteSet × CaptureSet) :=
  (trie.findNode 0 (partsOf path) .empty).map fun (index, captures) =>
    ((trie.node index).routes, captures)

end DynamicRouteTrie

/-! ## Methods of a matched path -/

/-- `RouteFailure`, with the value of the `Allow` header. -/
inductive RouteFailure where
  | options (allow : Text)
  | methodNotAllowed (allow : Text)
  deriving DecidableEq, Repr

/-- `route_index`: a `HEAD` request falls back to the `GET` route. -/
def routeIndex (routes : RouteSet) (method : Method) : Option RouteId :=
  (routes.route method).or (if method = .head then routes.route .get else none)

/-- `resolve_route_set` -/
def resolveRouteSet (method : Method) (routes : RouteSet) : Except RouteFailure RouteId :=
  match routeIndex routes method with
  | some index => .ok index
  | none =>
    if method = .options then .error (.options routes.allowedMethods)
    else .error (.methodNotAllowed routes.allowedMethods)

end OasRs
