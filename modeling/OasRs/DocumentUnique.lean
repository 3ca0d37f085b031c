import OasRs.DocumentSpec
import OasRs.DeadRoutes
import OasRs.Lib.Failing

/-!
# Uniqueness in the Document

OpenAPI wants the keys of `paths` to differ in more than the names of their captures, the
parameters of an operation to differ in location or name, and operation identifiers to be
unique. Identifiers are, and the parameters of one extractor are; two templates with other
names for their captures, a template with one name twice, and two extractors with one
parameter pass `build`.

## Main results

- `operation_iff`: the operations of the document are those of the routes
- `document_unique_iff`: which programs have a document that satisfies the rules
-/

namespace OasRs

open Lib Schema

variable {ι H M : Type}

/-! ## The operations of the document -/

/-- The operation under a path and a method. -/
def Document.operation (document : Document) (path method : Text) : Option OperationObject :=
  Table.lookup₂ document.paths path method

/-- Methods with a slot have keys of their own. -/
theorem AppDoc.methodKey_injOn {m n : Method} (hm : (methodSlot m).isSome = true)
    (hn : (methodSlot n).isSome = true) (h : methodKey m = methodKey n) : m = n := by
  obtain ⟨i, hi⟩ := Option.isSome_iff_exists.mp hm
  obtain ⟨j, hj⟩ := Option.isSome_iff_exists.mp hn
  rw [methodSlot_eq_some_iff.mp hi, methodSlot_eq_some_iff.mp hj] at h ⊢
  have key : ∀ i j : Fin 7, methodKey (slotMethod i) = methodKey (slotMethod j) →
      slotMethod i = slotMethod j := by decide +kernel
  exact key i j h

/-- The methods of registered routes have slots. -/
theorem App.Consistent.isSome_methodSlot {app : App H M} (hc : app.Consistent) {md : RouteMetadata}
    (hmd : md ∈ app.metadata) : (methodSlot md.method).isSome = true := by
  have hentry : (md.method, md.place) ∈ app.entries :=
    List.mem_map_of_mem (f := fun md : RouteMetadata => (md.method, md.place)) hmd
  obtain ⟨set, hlists⟩ : ∃ set : RouteSet, set.Lists app.entries md.place := by
    cases md.place with
    | table key => exact ⟨_, hc.table key⟩
    | trie p => exact ⟨_, hc.trie p⟩
  have hallows := (hlists.allows_iff md.method).mpr hentry
  rw [RouteSet.allows] at hallows
  split at hallows
  · rename_i slot hslot
    rw [hslot]
    rfl
  · cases hallows

/-- No method is registered twice for a template. -/
theorem App.Consistent.nodup_templates {app : App H M} (hc : app.Consistent) :
    (app.metadata.map fun md => (md.template, AppDoc.methodKey md.method)).Nodup := by
  have hentries := hc.nodup
  rw [App.entries, List.Nodup, List.pairwise_map] at hentries
  rw [List.Nodup, List.pairwise_map]
  refine hentries.imp_of_mem ?_
  intro md other hmd hother hne heq
  apply hne
  obtain ⟨htemplate, hkey⟩ := Prod.mk.inj heq
  -- the template determines the segments, and so the place
  have hsegments : md.segments = other.segments := by
    have hparsed := hc.parsed md hmd
    rw [htemplate, hc.parsed other hother] at hparsed
    exact (Except.ok.inj hparsed).symm
  rw [AppDoc.methodKey_injOn (hc.isSome_methodSlot hmd) (hc.isSome_methodSlot hother) hkey,
    RouteMetadata.place, RouteMetadata.place, htemplate, hsegments]

section Run

variable [DecidableEq ι] {named : Named ι} {p : DocProgram ι H M} {doc : AppDoc ι H M}

omit [DecidableEq ι] in
theorem AppDoc.Aligned.map_md (h : doc.Aligned) : doc.allRoutes.map Route.md = doc.app.metadata := by
  rw [allRoutes, List.map_map]
  show (doc.app.metadata.zip (doc.operations.zip doc.app.plans)).map Prod.fst = _
  apply List.map_fst_zip
  simp [h.operations, h.plans]

/-- None of the routes of a program is a generated one. -/
theorem routes_eq (hrun : p.run named none .new = .ok doc) (hnone : doc.app.routeError = none) :
    doc.routes = doc.allRoutes := by
  rw [AppDoc.routes, List.filter_eq_self]
  intro route hroute
  obtain ⟨r, -, hdescribes⟩ := forall₂_exists ((describes_run hrun).2 hnone) route hroute
  rw [hdescribes.metadata]
  rfl

/-- The keys of `paths` are the templates. -/
theorem mem_paths_iff (hrun : p.run named none .new = .ok doc) (hnone : doc.app.routeError = none)
    (template : Text) :
    template ∈ doc.document.paths ↔ ∃ route ∈ doc.allRoutes, route.md.template = template := by
  have hkeys := Table.mem_foldl_insert₂ (f := fun route : Route H => route.md.template)
    (g := fun route => AppDoc.methodKey route.md.method) (h := doc.operationObject) doc.allRoutes ∅
    template
  rw [← routes_eq hrun hnone] at hkeys ⊢
  exact hkeys.trans (or_iff_left (AList.notMem_empty template))

/-- **The operations of the document are those of the routes.** -/
theorem operation_iff (hrun : p.run named none .new = .ok doc) (hnone : doc.app.routeError = none)
    (path method : Text) (object : OperationObject) :
    doc.document.operation path method = some object ↔ ∃ route ∈ doc.allRoutes,
      route.md.template = path ∧ AppDoc.methodKey route.md.method = method ∧
        doc.operationObject route = object := by
  have hnodup : (doc.allRoutes.map fun route =>
      (route.md.template, AppDoc.methodKey route.md.method)).Nodup := by
    have hmd := (describes_run hrun).1.map_md
    have htemplates := (DocProgram.consistent hrun).nodup_templates
    rw [← hmd, List.map_map] at htemplates
    exact htemplates
  have hlookup := Table.lookup₂_foldl_insert₂ (h := doc.operationObject) hnodup ∅ path method object
  rw [← routes_eq hrun hnone] at hlookup ⊢
  refine hlookup.trans (or_iff_left ?_)
  rintro ⟨-, hempty⟩
  cases hempty

end Run

/-! ## Operation identifiers -/

section OperationIds

variable [DecidableEq ι] {named : Named ι} {doc doc' : AppDoc ι H M}

/-- No identifier is used twice. -/
def AppDoc.DistinctIds (doc : AppDoc ι H M) : Prop :=
  ∀ (i j : ℕ) (a b : Operation) (id : Text), doc.operations[i]? = some a →
    doc.operations[j]? = some b → a.operationId = some id → b.operationId = some id → i = j

omit [DecidableEq ι] in
/-- An edit of the route registered last keeps identifiers distinct, if it leaves the identifier
    or brings a new one. -/
theorem AppDoc.DistinctIds.describe (h : doc.DistinctIds) {f : Operation → Operation}
    (hf : ∀ operation id, (f operation).operationId = some id → operation.operationId = some id ∨
      ∀ other ∈ doc.operations, other.operationId ≠ some id) : (doc.describe f).DistinctIds := by
  rw [AppDoc.describe]
  split
  · rename_i index _
    -- an identifier was there before, or it is new at the index
    have hcases : ∀ (i : ℕ) (a : Operation) (id : Text),
        (doc.operations.modify index f)[i]? = some a → a.operationId = some id →
        ∃ a₀, doc.operations[i]? = some a₀ ∧ (a₀.operationId = some id ∨
          i = index ∧ ∀ other ∈ doc.operations, other.operationId ≠ some id) := by
      intro i a id ha hid
      rw [List.getElem?_modify, Option.map_eq_map, Option.map_eq_some_iff] at ha
      obtain ⟨a₀, ha₀, rfl⟩ := ha
      refine ⟨a₀, ha₀, ?_⟩
      split at hid
      · rename_i hi
        exact (hf a₀ id hid).imp_right fun hfresh => ⟨hi.symm, hfresh⟩
      · exact .inl hid
    intro i j a b id ha hb hida hidb
    obtain ⟨a₀, ha₀, hola | ⟨hi, hfresha⟩⟩ := hcases i a id ha hida
    · obtain ⟨b₀, hb₀, holb | ⟨-, hfreshb⟩⟩ := hcases j b id hb hidb
      · exact h i j a₀ b₀ id ha₀ hb₀ hola holb
      · exact absurd hola (hfreshb a₀ (List.mem_of_getElem? ha₀))
    · obtain ⟨b₀, hb₀, holb | ⟨hj, -⟩⟩ := hcases j b id hb hidb
      · exact absurd holb (hfresha b₀ (List.mem_of_getElem? hb₀))
      · exact hi.trans hj.symm
  · exact h

omit [DecidableEq ι] in
/-- A new operation has no identifier. -/
theorem AppDoc.DistinctIds.append (h : doc.DistinctIds) {operation : Operation}
    (hnone : operation.operationId = none) {app : App H M} {settings : Settings}
    {schemas : SchemaRegistry ι} :
    DistinctIds { app, operations := doc.operations ++ [operation], settings, schemas } := by
  have hcases : ∀ (i : ℕ) (a : Operation) (id : Text),
      (doc.operations ++ [operation])[i]? = some a → a.operationId = some id →
      doc.operations[i]? = some a := by
    intro i a id ha hid
    rw [List.getElem?_append] at ha
    split at ha
    · exact ha
    · obtain rfl : operation = a := by
        have hmem := List.mem_of_getElem? ha
        exact (List.mem_singleton.mp hmem).symm
      rw [hnone] at hid
      cases hid
  intro i j a b id ha hb hida hidb
  exact h i j a b id (hcases i a id ha hida) (hcases j b id hb hidb) hida hidb

omit [DecidableEq ι] in
theorem AppDoc.DistinctIds.record (h : doc.DistinctIds) {app : App H M} {response : ResponseType ι}
    {request : Gen ι OpenApiRequest} (hrun : doc.record named app response request = .ok doc') :
    doc'.DistinctIds := by
  rw [AppDoc.record] at hrun
  split at hrun
  · cases hrun
    exact h
  · simp only [bind_eq_ok, pure_eq_ok] at hrun
    obtain ⟨_, -, _, -, _, -, rfl⟩ := hrun
    exact h.append rfl

/-- Every call keeps identifiers distinct: `operation_id` asserts it. -/
theorem DocCall.distinctIds_run {group : Option Text} {c : DocCall ι H M} (h : doc.DistinctIds)
    (hrun : c.run named group doc = .ok doc') : doc'.DistinctIds := by
  cases hr : c.registered group with
  | some r =>
    obtain ⟨_, app, -, -, hrecord⟩ := record_of_run hr hrun
    exact h.record hrecord
  | none =>
    cases neutral_of_run hr hrun with
    | calls call app => exact h
    | openapi option hc => exact h
    | describes f _ _ hid => exact h.describe hid

/-- **Operation identifiers are unique.** -/
theorem distinctIds_run {p : DocProgram ι H M} (h : p.run named none .new = .ok doc) :
    doc.DistinctIds := by
  have hnew : (AppDoc.new : AppDoc ι H M).DistinctIds := by
    intro i j a b id ha
    cases ha
  exact DocProgram.run_induction (motive := fun _ doc => doc.DistinctIds) hnew
    (fun _ _ _ _ _ h hrun => DocCall.distinctIds_run h hrun) h

omit [DecidableEq ι] in
theorem AppDoc.route_unique (h : doc.DistinctIds) {route other : Route H}
    (hroute : route ∈ doc.allRoutes) (hother : other ∈ doc.allRoutes) {id : Text}
    (hid : route.operation.operationId = some id) (hid' : other.operation.operationId = some id) :
    route = other := by
  have hat : ∀ {i : ℕ} {route : Route H}, doc.allRoutes[i]? = some route →
      doc.operations[i]? = some route.operation := by
    intro i route hi
    rw [allRoutes, List.getElem?_map, Option.map_eq_some_iff] at hi
    obtain ⟨⟨md, operation, plan⟩, hzip, rfl⟩ := hi
    exact (List.getElem?_zip_eq_some.mp (List.getElem?_zip_eq_some.mp hzip).2).1
  obtain ⟨i, hi⟩ := List.getElem?_of_mem hroute
  obtain ⟨j, hj⟩ := List.getElem?_of_mem hother
  obtain rfl := h i j _ _ id (hat hi) (hat hj) hid hid'
  exact Option.some.inj (hi.symm.trans hj)

end OperationIds

/-! ## Parameters -/

section Parameters

/-- A dedup leaves no name twice, and none of those seen. -/
theorem dedupFrom_spec (seen : List Text) (parameters : List Parameter) :
    ((dedupFrom seen parameters).map Parameter.name).Nodup ∧
      (∀ parameter ∈ dedupFrom seen parameters, parameter ∈ parameters ∧ parameter.name ∉ seen) := by
  induction parameters generalizing seen with
  | nil => simp [dedupFrom]
  | cons parameter parameters ih =>
    rw [dedupFrom]
    split
    · obtain ⟨hnodup, hmem⟩ := ih seen
      refine ⟨hnodup, fun other hother => ?_⟩
      exact ⟨List.mem_cons_of_mem _ (hmem other hother).1, (hmem other hother).2⟩
    · rename_i hnew
      obtain ⟨hnodup, hmem⟩ := ih (parameter.name :: seen)
      constructor
      · rw [List.map_cons, List.nodup_cons]
        refine ⟨fun hrepeated => ?_, hnodup⟩
        obtain ⟨other, hother, hname⟩ := List.mem_map.mp hrepeated
        apply (hmem other hother).2
        rw [hname]
        exact List.mem_cons_self
      · intro other hother
        rcases List.mem_cons.mp hother with rfl | hother
        · exact ⟨List.mem_cons_self, hnew⟩
        · obtain ⟨hold, hseen⟩ := hmem other hother
          exact ⟨List.mem_cons_of_mem _ hold, fun h => hseen (List.mem_cons_of_mem _ h)⟩

mutual

theorem location_queryParameters (optional : Bool) : (schema : Json) →
    ∀ parameter ∈ queryParametersFromSchema optional schema, parameter.location = .query
  | .obj entries => by
    intro parameter hparameter
    rw [queryParametersFromSchema, List.mem_append, List.mem_append] at hparameter
    rcases hparameter with (hproperty | hall) | hany
    · rw [propertyParameters] at hproperty
      split at hproperty
      · obtain ⟨_, -, rfl⟩ := List.mem_map.mp hproperty
        rfl
      · cases hproperty
    · exact location_partsUnder "allOf" optional entries parameter hall
    · exact location_partsUnder "anyOf" true entries parameter hany
  | .null | .bool _ | .num _ | .str _ | .arr _ => by
    intro parameter hparameter
    rw [queryParametersFromSchema] at hparameter
    · cases hparameter
    · intro entries h
      cases h

theorem location_partsUnder (key : String) (optional : Bool) : (entries : List (String × Json)) →
    ∀ parameter ∈ partsUnder key optional entries, parameter.location = .query
  | [] => by
    intro parameter hparameter
    cases hparameter
  | (k, .arr parts) :: entries => by
    intro parameter hparameter
    rw [partsUnder] at hparameter
    split at hparameter
    · exact location_partsParameters optional parts parameter hparameter
    · exact location_partsUnder key optional entries parameter hparameter
  | (k, .null) :: entries | (k, .bool _) :: entries | (k, .num _) :: entries
  | (k, .str _) :: entries | (k, .obj _) :: entries => by
    intro parameter hparameter
    rw [partsUnder] at hparameter
    · split at hparameter
      · cases hparameter
      · exact location_partsUnder key optional entries parameter hparameter
    · intro parts h
      cases h

theorem location_partsParameters (optional : Bool) : (parts : List Json) →
    ∀ parameter ∈ partsParameters optional parts, parameter.location = .query
  | [] => by
    intro parameter hparameter
    cases hparameter
  | part :: parts => by
    intro parameter hparameter
    rw [partsParameters, List.mem_append] at hparameter
    rcases hparameter with hpart | hparts
    · exact location_queryParameters optional part parameter hpart
    · exact location_partsParameters optional parts parameter hparts

end

variable [DecidableEq ι] {named : Named ι}

theorem QueryStruct.location_fieldParameters {containerDefault : Bool} {field : StructField ι}
    {parameters : List Parameter}
    (h : fieldParameters named containerDefault field = some parameters) :
    ∀ parameter ∈ parameters, parameter.location = .query := by
  simp only [fieldParameters, Option.bind_eq_bind, Option.pure_def, Option.bind_eq_some_iff,
    Option.some.injEq] at h
  obtain ⟨flattened, hflattened, own, hown, rfl⟩ := h
  intro parameter hparameter
  rcases List.mem_append.mp hparameter with hmem | hmem
  · rw [flattenedParameters] at hflattened
    split at hflattened
    · obtain ⟨schema, -, rfl⟩ := Option.map_eq_some_iff.mp hflattened
      exact location_queryParameters _ _ parameter hmem
    · cases hflattened
      cases hmem
  · rw [ownParameters] at hown
    split at hown
    · cases hown
      cases hmem
    · obtain ⟨schema, -, rfl⟩ := Option.map_eq_some_iff.mp hown
      rw [List.mem_singleton.mp hmem]
      rfl

/-- The parameters of one query struct are in the query, each name once. -/
theorem QueryStruct.parameters_spec {query : QueryStruct ι} {parameters : List Parameter}
    (h : query.parameters named = some parameters) :
    (parameters.map Parameter.key).Nodup ∧ ∀ parameter ∈ parameters, parameter.location = .query := by
  cases query with
  | transparent type =>
    cases h
    simp
  | struct input =>
    obtain ⟨groups, hgroups, rfl⟩ := Option.map_eq_some_iff.mp h
    obtain ⟨hnodup, hmem⟩ := dedupFrom_spec [] groups.flatten
    have hquery : ∀ parameter ∈ dedupParameters groups.flatten, parameter.location = .query := by
      intro parameter hparameter
      obtain ⟨group, hgroup, hparameter⟩ := List.mem_flatten.mp (hmem parameter hparameter).1
      obtain ⟨field, -, hfield⟩ := forall₂_exists (mapM_eq_some.mp hgroups) group hgroup
      exact QueryStruct.location_fieldParameters hfield parameter hparameter
    refine ⟨?_, hquery⟩
    refine List.Nodup.of_map Prod.snd ?_
    rw [List.map_map]
    exact hnodup

/-- No extractor declares a parameter in the path. -/
theorem Extractor.location_parameters {extractor : Extractor ι} {parameters : List Parameter}
    (h : extractor.parameters named = some parameters) :
    ∀ parameter ∈ parameters, parameter.location ≠ .path := by
  induction extractor generalizing parameters with
  | query type =>
    intro parameter hparameter
    rw [(QueryStruct.parameters_spec h).2 parameter hparameter]
    decide
  | header name =>
    cases h
    intro parameter hparameter
    rw [List.mem_singleton.mp hparameter]
    intro heq
    cases heq
  | option inner ih =>
    obtain ⟨parameters, hinner, rfl⟩ := Option.map_eq_some_iff.mp h
    intro parameter hparameter
    obtain ⟨parameter, hmem, rfl⟩ := List.mem_map.mp hparameter
    exact ih hinner parameter hmem
  | state | path _ | params | json _ | form _ | multipart | cookies | headers | connectInfo =>
    cases h
    intro parameter hparameter
    cases hparameter

theorem Signature.location_parameters {signature : Signature ι} {parameters : List Parameter}
    (h : signature.parameters named = some parameters) :
    ∀ parameter ∈ parameters, parameter.location ≠ .path := by
  obtain ⟨groups, hgroups, rfl⟩ := Option.map_eq_some_iff.mp h
  intro parameter hparameter
  obtain ⟨group, hgroup, hparameter⟩ := List.mem_flatten.mp hparameter
  obtain ⟨extractor, -, hextractor⟩ := forall₂_exists (mapM_eq_some.mp hgroups) group hgroup
  exact Extractor.location_parameters hextractor parameter hparameter

theorem map_key_pathParameters (segments : List Segment) (pathSchemas : List Json) :
    (pathParameters segments pathSchemas).map Parameter.key =
      (App.captureNames segments).map fun name => (Location.path, name) := by
  rw [pathParameters, List.map_map]
  show (App.captureNames segments).zipIdx.map ((fun name => (Location.path, name)) ∘ Prod.fst) = _
  rw [← List.map_map, List.zipIdx_map_fst]

/-- The parameters of an operation are told apart exactly when those of the extractors are, and
    the captures have names of their own. -/
theorem nodup_parameters_iff {parameters : List Parameter} {segments : List Segment}
    {pathSchemas : List Json} (hpath : ∀ parameter ∈ parameters, parameter.location ≠ .path) :
    ((parameters ++ pathParameters segments pathSchemas).map Parameter.key).Nodup ↔
      (parameters.map Parameter.key).Nodup ∧ (App.captureNames segments).Nodup := by
  have hinjective : Function.Injective fun name : Text => (Location.path, name) :=
    fun a b h => (Prod.mk.inj h).2
  rw [List.map_append, List.nodup_append, map_key_pathParameters, List.nodup_map_iff hinjective]
  constructor
  · intro h
    exact ⟨h.1, h.2.1⟩
  · intro h
    refine ⟨h.1, h.2, ?_⟩
    intro key hkey key' hkey' heq
    obtain ⟨parameter, hparameter, rfl⟩ := List.mem_map.mp hkey
    obtain ⟨name, -, rfl⟩ := List.mem_map.mp hkey'
    exact hpath parameter hparameter (Prod.mk.inj heq).1

end Parameters

/-! ## The three rules -/

/-- A template without the names of its captures. -/
def anonymous (template : Text) : Text := fillTemplate [openBrace, closeBrace] template

example : anonymous (str "/users/{id}/notes") = str "/users/{}/notes" := by decide

/-- The uniqueness rules of OpenAPI. -/
structure Document.Unique (document : Document) : Prop where
  keys : ∀ a ∈ document.paths, ∀ b ∈ document.paths, anonymous a = anonymous b → a = b
  parameters : ∀ path method object, document.operation path method = some object →
    (object.parameters.map Parameter.key).Nodup
  operationIds : ∀ path method object path' method' object' id,
    document.operation path method = some object →
    document.operation path' method' = some object' → object.operationId = some id →
    object'.operationId = some id → path = path' ∧ method = method'

section Unique

variable [DecidableEq ι] {named : Named ι} {p : DocProgram ι H M} {doc : AppDoc ι H M}
  {render : Document → H} {page : H} {built : App H M}

/-- No two of a route's own parameters have one location and name: its extractors declare
    different ones, and its template names its captures differently. -/
def Registered.Unambiguous (named : Named ι) (r : Registered ι H) : Prop :=
  (∀ parameters ∈ r.signature.parameters named, (parameters.map Parameter.key).Nodup) ∧
    ∀ segments ∈ (parseTemplate r.template).toOption, (App.captureNames segments).Nodup

instance (r : Registered ι H) : Decidable (r.Unambiguous named) :=
  inferInstanceAs (Decidable (_ ∧ _))

theorem Registered.Describes.nodup_iff {r : Registered ι H} {route : Route H}
    (h : r.Describes named route) :
    ((doc.operationObject route).parameters.map Parameter.key).Nodup ↔ r.Unambiguous named := by
  rw [AppDoc.operationObject, nodup_parameters_iff (Signature.location_parameters h.parameters)]
  constructor
  · intro hnodup
    constructor
    · intro parameters hparameters
      cases h.parameters.symm.trans hparameters
      exact hnodup.1
    · intro segments hsegments
      rw [h.parsed] at hsegments
      cases hsegments
      exact hnodup.2
  · intro hunambiguous
    refine ⟨hunambiguous.1 _ h.parameters, hunambiguous.2 _ ?_⟩
    rw [h.parsed]
    rfl

/-- What `build` starts from. -/
theorem DocProgram.build_ok (h : p.build named render page = .ok (doc, built)) :
    p.run named none .new = .ok doc ∧ doc.install render page = .ok built := by
  rw [build] at h
  split at h
  · cases h
  · rename_i doc' hrun
    split at h
    · cases h
    · rename_i built' hinstall
      cases h
      exact ⟨hrun, hinstall⟩

omit [DecidableEq ι] in
theorem AppDoc.install_ok (h : doc.install render page = .ok built) :
    doc.app.routeError = none ∧ doc.validateSchemas = none ∧ doc.validateSecurity = none := by
  rw [install, App.install] at h
  split at h
  · cases h
  · rename_i hnone
    simpa using hnone

/-- **When the document satisfies the rules**: no two of the routes registered have templates
that differ only in the names of captures, and each of them is unambiguous by itself. -/
theorem document_unique_iff (hbuild : p.build named render page = .ok (doc, built)) :
    doc.document.Unique ↔
      (∀ r ∈ p.registered, ∀ s ∈ p.registered,
        anonymous r.template = anonymous s.template → r.template = s.template) ∧
      ∀ r ∈ p.registered, r.Unambiguous named := by
  obtain ⟨hrun, hinstall⟩ := DocProgram.build_ok hbuild
  obtain ⟨hnone, -, -⟩ := AppDoc.install_ok hinstall
  have hroutes := (describes_run hrun).2 hnone
  have htemplate : ∀ {r : Registered ι H} {route : Route H}, r.Describes named route →
      route.md.template = r.template := by
    intro r route h
    rw [h.metadata]
    rfl
  -- routes and registrations correspond, in both directions
  constructor
  · intro hunique
    constructor
    · intro r hr s hs heq
      obtain ⟨route, hroute, hr⟩ := forall₂_exists hroutes.flip r hr
      obtain ⟨other, hother, hs⟩ := forall₂_exists hroutes.flip s hs
      refine hunique.keys _ ?_ _ ?_ heq
      · exact (mem_paths_iff hrun hnone _).mpr ⟨route, hroute, htemplate hr⟩
      · exact (mem_paths_iff hrun hnone _).mpr ⟨other, hother, htemplate hs⟩
    · intro r hr
      obtain ⟨route, hroute, hr⟩ := forall₂_exists hroutes.flip r hr
      refine (hr.nodup_iff : ((doc.operationObject route).parameters.map
        Parameter.key).Nodup ↔ _).mp ?_
      exact hunique.parameters _ _ _
        ((operation_iff hrun hnone _ _ _).mpr ⟨route, hroute, rfl, rfl, rfl⟩)
  · intro h
    obtain ⟨hkeys, hunambiguous⟩ := h
    refine ⟨?_, ?_, ?_⟩
    · intro a ha b hb heq
      obtain ⟨route, hroute, rfl⟩ := (mem_paths_iff hrun hnone a).mp ha
      obtain ⟨other, hother, rfl⟩ := (mem_paths_iff hrun hnone b).mp hb
      obtain ⟨r, hmem, hr⟩ := forall₂_exists hroutes route hroute
      obtain ⟨s, hmem', hs⟩ := forall₂_exists hroutes other hother
      rw [htemplate hr, htemplate hs] at heq ⊢
      exact hkeys r hmem s hmem' heq
    · intro path method object hobject
      obtain ⟨route, hroute, -, -, rfl⟩ := (operation_iff hrun hnone _ _ _).mp hobject
      obtain ⟨r, hmem, hr⟩ := forall₂_exists hroutes route hroute
      exact hr.nodup_iff.mpr (hunambiguous r hmem)
    · intro path method object path' method' object' id hobject hobject' hid hid'
      obtain ⟨route, hroute, rfl, rfl, rfl⟩ := (operation_iff hrun hnone _ _ _).mp hobject
      obtain ⟨other, hother, rfl, rfl, rfl⟩ := (operation_iff hrun hnone _ _ _).mp hobject'
      -- one identifier is that of one route
      have hsame := AppDoc.route_unique (distinctIds_run hrun) hroute hother hid hid'
      rw [hsame]
      exact ⟨rfl, rfl⟩

end Unique

/-- An application without derived types. -/
def noTypes : Named Empty := fun _ type => nomatch type

/-- Two methods of one template. -/
def sameNamedExample : DocProgram Empty Unit Unit :=
  .call (.route .get (str "/users/{id}") { extractors := [.params], response := .text } ())
    (.call (.route .post (str "/users/{id}") { extractors := [.params], response := .unit } ())
      (.call (.operationId (str "create")) .done))

def sameNamedBuilt : AppDoc Empty Unit Unit × App Unit Unit :=
  returned (sameNamedExample.build noTypes (fun _ => ()) ()) (by decide +kernel)

theorem document_unique_sameNamed : sameNamedBuilt.1.document.Unique := by
  have hbuild : sameNamedExample.build noTypes (fun _ => ()) () = .ok sameNamedBuilt :=
    eq_returned (by decide +kernel)
  exact (document_unique_iff hbuild).mpr ⟨by decide +kernel, by decide +kernel⟩

/-- One template with two names for its capture. -/
def crossNamedExample : DocProgram Empty Unit Unit :=
  .call (.route .get (str "/users/{id}") { extractors := [.params], response := .text } ())
    (.call (.route .post (str "/users/{name}") { extractors := [.params], response := .unit } ())
      .done)

def crossNamedBuilt : AppDoc Empty Unit Unit × App Unit Unit :=
  returned (crossNamedExample.build noTypes (fun _ => ()) ()) (by decide +kernel)

/-- **`GET /users/{id}` and `POST /users/{name}` are two keys of one document.** -/
theorem not_document_unique_crossNamed :
    crossNamedExample.build noTypes (fun _ => ()) () = .ok crossNamedBuilt ∧
      ¬ crossNamedBuilt.1.document.Unique := by
  refine ⟨eq_returned (by decide +kernel), fun h => ?_⟩
  have hsame := h.keys (str "/users/{id}") (by decide +kernel) (str "/users/{name}")
    (by decide +kernel) (by decide +kernel)
  revert hsame
  decide +kernel

end OasRs
