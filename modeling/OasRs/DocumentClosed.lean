import OasRs.DocumentUnique
import OasRs.Components

/-!
# The Document is Closed

A document is assembled from a registry that registrations fill, from operations that later calls
edit, and from settings made before or after; `build` checks conflicts of names and the names of
security schemes. Whenever it lets a program pass, no reference of the document dangles.

## Main results

- `DocProgram.asked`: the types whose schemas a program asks for
- `closed_run`: what a run keeps
- `document_closed`
-/

namespace OasRs

open Lib Schema Components

variable {ι H M : Type}

/-! ## What registrations ask for -/

/-- The types that a response asks for. -/
def ResponseType.asked : ResponseType ι → List (Asked ι)
  | .json type | .created type => [(false, type)]
  | .result inner | .headered inner => inner.asked
  | .text | .bytes | .jsonBytes | .unit | .noContent | .notModified | .stream | .sse | .html
  | .redirect | .webSocket => []

/-- The types that an extractor asks for: those of JSON bodies. The others are described inline. -/
def Extractor.asked : Extractor ι → List (Asked ι)
  | .json type => [(true, type)]
  | .option inner => inner.asked
  | .state | .path _ | .params | .query _ | .header _ | .form _ | .multipart | .cookies | .headers
  | .connectInfo => []

def Signature.asked (signature : Signature ι) : List (Asked ι) :=
  signature.response.asked ++ signature.extractors.flatMap Extractor.asked

/-- The types whose schemas a program asks for, in order. -/
def DocProgram.asked (p : DocProgram ι H M) : List (Asked ι) :=
  p.registered.flatMap fun r => r.signature.asked

/-- The schemas of an operation. -/
structure OpenApiRequest.All (P : Json → Prop) (request : OpenApiRequest) : Prop where
  pathSchemas : ∀ schema ∈ request.pathSchemas, P schema
  parameters : ∀ parameter ∈ request.parameters, P parameter.schema
  body : ∀ body ∈ request.requestBody, P body.schema

theorem OpenApiRequest.All.mono {P Q : Json → Prop} (h : ∀ schema, P schema → Q schema)
    {request : OpenApiRequest} (hrequest : request.All P) : request.All Q where
  pathSchemas schema hschema := h _ (hrequest.pathSchemas schema hschema)
  parameters parameter hparameter := h _ (hrequest.parameters parameter hparameter)
  body body hbody := h _ (hrequest.body body hbody)

theorem OpenApiRequest.All.merge {P : Json → Prop} {request other : OpenApiRequest}
    (h : request.All P) (h' : other.All P) : (request.merge other).All P where
  pathSchemas := List.forall_mem_append.mpr ⟨h.pathSchemas, h'.pathSchemas⟩
  parameters := List.forall_mem_append.mpr ⟨h.parameters, h'.parameters⟩
  body body hbody := by
    cases hfirst : request.requestBody with
    | none =>
      rw [OpenApiRequest.merge, hfirst, Option.none_or] at hbody
      exact h'.body body hbody
    | some first =>
      rw [OpenApiRequest.merge, hfirst, Option.some_or] at hbody
      exact h.body body (hfirst ▸ hbody)

theorem OpenApiRequest.All.relax {P : Json → Prop} {request : OpenApiRequest} (h : request.All P) :
    request.relax.All P where
  pathSchemas := h.pathSchemas
  parameters parameter hparameter := by
    obtain ⟨parameter, hmem, rfl⟩ := List.mem_map.mp hparameter
    exact h.parameters parameter hmem
  body body hbody := by
    obtain ⟨body, hmem, rfl⟩ := Option.mem_map.mp hbody
    exact h.body body hmem

/-! ## Query parameters refer to nothing -/

mutual

/-- The parameters of a schema have its references. -/
theorem citesOnly_queryParameters {P : String → Prop} (optional : Bool) : (schema : Json) →
    CitesOnly P schema →
    ∀ parameter ∈ queryParametersFromSchema optional schema, CitesOnly P parameter.schema
  | .obj entries, h => by
    intro parameter hparameter
    rw [queryParametersFromSchema, List.mem_append, List.mem_append] at hparameter
    rcases hparameter with (hproperty | hall) | hany
    · rw [propertyParameters] at hproperty
      split at hproperty
      · rename_i properties hget
        obtain ⟨e, he, rfl⟩ := List.mem_map.mp hproperty
        exact (citesOnly_obj_iff.mp h _ _ hget).property rfl properties rfl e he
      · cases hproperty
    · refine citesOnly_partsUnder "allOf" optional entries ?_ parameter hall
      exact fun parts hget => (citesOnly_obj_iff.mp h _ _ hget).list (by decide) parts rfl
    · refine citesOnly_partsUnder "anyOf" true entries ?_ parameter hany
      exact fun parts hget => (citesOnly_obj_iff.mp h _ _ hget).list (by decide) parts rfl
  | .null, _ | .bool _, _ | .num _, _ | .str _, _ | .arr _, _ => by
    intro parameter hparameter
    rw [queryParametersFromSchema] at hparameter
    · cases hparameter
    · intro entries h
      cases h

theorem citesOnly_partsUnder {P : String → Prop} (key : String) (optional : Bool) :
    (entries : List (String × Json)) →
    (∀ parts, Entries.get key entries = some (.arr parts) → ∀ part ∈ parts, CitesOnly P part) →
    ∀ parameter ∈ partsUnder key optional entries, CitesOnly P parameter.schema
  | [], _ => by
    intro parameter hparameter
    cases hparameter
  | (k, .arr parts) :: entries, h => by
    intro parameter hparameter
    rw [partsUnder] at hparameter
    rw [Entries.get] at h
    split at hparameter
    · rename_i hkey
      rw [if_pos hkey] at h
      exact citesOnly_partsParameters optional parts (h parts rfl) parameter hparameter
    · rename_i hkey
      rw [if_neg hkey] at h
      exact citesOnly_partsUnder key optional entries h parameter hparameter
  | (k, .null) :: entries, h | (k, .bool _) :: entries, h | (k, .num _) :: entries, h
  | (k, .str _) :: entries, h | (k, .obj _) :: entries, h => by
    intro parameter hparameter
    rw [Entries.get] at h
    rw [partsUnder] at hparameter
    · split at hparameter
      · cases hparameter
      · rename_i hkey
        rw [if_neg hkey] at h
        exact citesOnly_partsUnder key optional entries h parameter hparameter
    · intro parts h
      cases h

theorem citesOnly_partsParameters {P : String → Prop} (optional : Bool) : (parts : List Json) →
    (∀ part ∈ parts, CitesOnly P part) →
    ∀ parameter ∈ partsParameters optional parts, CitesOnly P parameter.schema
  | [], _ => by
    intro parameter hparameter
    cases hparameter
  | part :: parts, h => by
    intro parameter hparameter
    rw [List.forall_mem_cons] at h
    rw [partsParameters, List.mem_append] at hparameter
    rcases hparameter with hpart | hparts
    · exact citesOnly_queryParameters optional part h.1 parameter hpart
    · exact citesOnly_partsParameters optional parts h.2 parameter hparts

end

section Inline

variable [DecidableEq ι] {inputs : ι → DeriveInput ι} {fuel : ℕ}

/-- An inline schema refers to nothing. -/
theorem refless_schema {type : RustType ι} {schema : Json}
    (h : type.schema (derived inputs fuel) = some schema) : Refless schema := by
  cases hk : type.named? with
  | none =>
    rw [RustType.schema_of_none _ (fun _ => .null) hk] at h
    cases h
    exact RustType.schemaFor_citesOnly (fun _ => citesOnly_null) type
  | some k =>
    rw [RustType.schema_of_some _ hk] at h
    obtain ⟨inner, hinner, rfl⟩ := Option.map_eq_some_iff.mp h
    obtain ⟨p, hp, rfl⟩ := Option.map_eq_some_iff.mp hinner
    exact RustType.schemaFor_citesOnly (fun _ => inlined_citesOnly ⟨fuel, p.2, hp⟩) type

theorem refless_fieldParameters {containerDefault : Bool} {field : StructField ι}
    {parameters : List Parameter}
    (h : QueryStruct.fieldParameters (derived inputs fuel) containerDefault field = some parameters) :
    ∀ parameter ∈ parameters, Refless parameter.schema := by
  simp only [QueryStruct.fieldParameters, Option.bind_eq_bind, Option.pure_def,
    Option.bind_eq_some_iff, Option.some.injEq] at h
  obtain ⟨flattened, hflattened, own, hown, rfl⟩ := h
  rw [List.forall_mem_append]
  constructor
  · rw [QueryStruct.flattenedParameters] at hflattened
    split at hflattened
    · obtain ⟨schema, hschema, rfl⟩ := Option.map_eq_some_iff.mp hflattened
      exact citesOnly_queryParameters _ schema (refless_schema hschema)
    · cases hflattened
      intro parameter hmem
      cases hmem
  · rw [QueryStruct.ownParameters] at hown
    split at hown
    · cases hown
      intro parameter hmem
      cases hmem
    · obtain ⟨schema, hschema, rfl⟩ := Option.map_eq_some_iff.mp hown
      rw [List.forall_mem_singleton]
      exact refless_schema hschema

/-- The parameters of a query struct refer to nothing. -/
theorem refless_parameters {query : QueryStruct ι} {parameters : List Parameter}
    (h : query.parameters (derived inputs fuel) = some parameters) :
    ∀ parameter ∈ parameters, Refless parameter.schema := by
  cases query with
  | transparent type =>
    cases h
    exact nofun
  | struct input =>
    obtain ⟨groups, hgroups, rfl⟩ := Option.map_eq_some_iff.mp h
    intro parameter hparameter
    have hmem := ((dedupFrom_spec [] groups.flatten).2 parameter hparameter).1
    obtain ⟨group, hgroup, hparameter⟩ := List.mem_flatten.mp hmem
    obtain ⟨field, -, hfield⟩ := forall₂_exists (mapM_eq_some.mp hgroups) group hgroup
    exact refless_fieldParameters hfield parameter hparameter

/-- The properties that are inserted into an object. -/
theorem forall_mem_insert {P : Json → Prop} {key : String} {value : Json} {entries : Entries}
    (h : ∀ e ∈ entries, P e.2) (hvalue : P value) : ∀ e ∈ Entries.insert key value entries, P e.2 := by
  intro e he
  rcases Entries.mem_insert_key he with rfl | he
  · exact hvalue
  · exact h e he

theorem refless_formSchema {parameters : List Parameter}
    (h : ∀ parameter ∈ parameters, Refless parameter.schema) : Refless (formSchema parameters) := by
  have hproperties : ∀ (parameters : List Parameter) (start : Entries),
      (∀ e ∈ start, Refless e.2) → (∀ parameter ∈ parameters, Refless parameter.schema) →
      ∀ e ∈ parameters.foldl (fun entries parameter =>
        Entries.insert (spell parameter.name) parameter.schema entries) start, Refless e.2 := by
    intro parameters
    induction parameters with
    | nil => exact fun start hstart _ => hstart
    | cons parameter parameters ih =>
      intro start hstart h
      rw [List.forall_mem_cons] at h
      exact ih _ (forall_mem_insert hstart h.1) h.2
  unfold formSchema
  apply citesOnly_object
  rw [List.forall_mem_append, List.forall_mem_cons, List.forall_mem_singleton]
  refine ⟨⟨entryCitesOnly_of_notMem (by decide : "type" ∉ citingKeys) _,
    entryCitesOnly_properties (hproperties parameters [] nofun h)⟩, ?_⟩
  split
  · exact nofun
  · rw [List.forall_mem_singleton]
    exact entryCitesOnly_of_notMem (by decide : "required" ∉ citingKeys) _

theorem refless_multipartSchema : Refless multipartSchema :=
  citesOnly_wrapper (by decide) (citesOnly_annotations (by decide)) _

/-- Documented multipart fields refer to nothing. -/
theorem refless_multipartFields (fields : List MultipartField) :
    Refless (MultipartField.body fields).schema := by
  have hfield : ∀ field : MultipartField, Refless field.schema := by
    intro field
    apply citesOnly_annotations
    intro e he
    rw [List.mem_append, List.mem_append, List.mem_singleton] at he
    rcases he with (rfl | he) | he
    · exact (by decide : "type" ∉ citingKeys)
    · split at he
      · rw [List.mem_singleton.mp he]
        exact (by decide : "format" ∉ citingKeys)
      · cases he
    · obtain ⟨text, -, rfl⟩ := by simpa using he
      exact (by decide : "description" ∉ citingKeys)
  unfold MultipartField.body
  apply citesOnly_object
  rw [List.forall_mem_append, List.forall_mem_cons, List.forall_mem_singleton]
  refine ⟨⟨entryCitesOnly_of_notMem (by decide : "type" ∉ citingKeys) _,
    entryCitesOnly_properties ?_⟩, ?_⟩
  · have hinserted : ∀ (entries start : Entries), (∀ e ∈ start, Refless e.2) →
        (∀ e ∈ entries, Refless e.2) →
        ∀ e ∈ entries.foldl (fun m e => Entries.insert e.1 e.2 m) start, Refless e.2 := by
      intro entries
      induction entries with
      | nil => exact fun start hstart _ => hstart
      | cons e entries ih =>
        intro start hstart h
        rw [List.forall_mem_cons] at h
        exact ih _ (forall_mem_insert hstart h.1) h.2
    apply hinserted _ [] nofun
    intro e he
    obtain ⟨field, -, rfl⟩ := List.mem_map.mp he
    exact hfield field
  · split
    · exact nofun
    · rw [List.forall_mem_singleton]
      exact entryCitesOnly_of_notMem (by decide : "required" ∉ citingKeys) _

end Inline

/-! ## Registrations ask for types -/

section Asking

variable [DecidableEq ι] {inputs : ι → DeriveInput ι} {fuel : ℕ} {r r' : SchemaRegistry ι}
  {asked : List (Asked ι)}

/-- The response of a route asks for its type. -/
theorem asks_response {response : ResponseType ι} {schema : Option Json}
    (h : response.responseSchema (derived inputs fuel) r = some (schema, r')) :
    ∃ answers, response.asked.mapM (ask (derived inputs fuel)) r = some (answers, r') ∧
      ∀ schema' ∈ schema, schema' ∈ answers := by
  induction response with
  | json type | created type =>
    obtain ⟨schema', r₁, hcall, heq⟩ := eq_some_of_bind h
    cases heq
    refine ⟨[schema'], ?_, fun _ hmem => List.mem_singleton.mpr (Option.some.inj hmem).symm⟩
    show ([(false, type)].mapM (ask (derived inputs fuel))) r = some ([schema'], r')
    rw [List.mapM_cons, bind_apply, ask, hcall]
    rfl
  | result inner ih | headered inner ih => exact ih h
  | text | bytes | jsonBytes | unit | noContent | notModified | stream | sse | html | redirect
  | webSocket =>
    cases h
    exact ⟨[], rfl, nofun⟩

/-- An extractor asks for the type of a JSON body, and describes the rest inline. -/
theorem asks_extractor {extractor : Extractor ι} {request : OpenApiRequest}
    (h : extractor.openapiRequest (derived inputs fuel) r = some (request, r')) :
    ∃ answers, extractor.asked.mapM (ask (derived inputs fuel)) r = some (answers, r') ∧
      request.All fun schema => Refless schema ∨ schema ∈ answers := by
  induction extractor generalizing request r' with
  | option inner ih =>
    obtain ⟨request', r₁, hinner, heq⟩ := eq_some_of_bind h
    cases heq
    obtain ⟨answers, hrun, hall⟩ := ih hinner
    exact ⟨answers, hrun, hall.relax⟩
  -- paths, queries and forms have inline schemas, which refer to nothing
  | path type =>
    obtain ⟨schema, r₁, hschema, heq⟩ := eq_some_of_bind h
    cases heq
    obtain ⟨schema', hsome, heq⟩ := Option.bind_eq_some_iff.mp hschema
    cases heq
    refine ⟨[], rfl, ?_, nofun, nofun⟩
    exact List.forall_mem_singleton.mpr (.inl (refless_schema hsome))
  | query type =>
    obtain ⟨parameters, r₁, hparameters, heq⟩ := eq_some_of_bind h
    cases heq
    obtain ⟨parameters', hsome, heq⟩ := Option.bind_eq_some_iff.mp hparameters
    cases heq
    refine ⟨[], rfl, nofun, ?_, nofun⟩
    exact fun parameter hmem => .inl (refless_parameters hsome parameter hmem)
  | form type =>
    obtain ⟨parameters, r₁, hparameters, heq⟩ := eq_some_of_bind h
    cases heq
    obtain ⟨parameters', hsome, heq⟩ := Option.bind_eq_some_iff.mp hparameters
    cases heq
    refine ⟨[], rfl, nofun, nofun, ?_⟩
    rintro body ⟨⟩
    exact .inl (refless_formSchema (refless_parameters hsome))
  -- the schema of a JSON body is the only answer that may refer to components
  | json type =>
    obtain ⟨schema, r₁, hcall, heq⟩ := eq_some_of_bind h
    cases heq
    refine ⟨[schema], ?_, nofun, nofun, ?_⟩
    · show ([(true, type)].mapM (ask (derived inputs fuel))) r = some ([schema], r')
      rw [List.mapM_cons, bind_apply, ask, hcall]
      rfl
    · rintro body ⟨⟩
      exact .inr (List.mem_singleton_self _)
  | header name =>
    cases h
    refine ⟨[], rfl, nofun, ?_, nofun⟩
    rw [List.forall_mem_singleton]
    exact .inl (citesOnly_annotations (by decide))
  | multipart =>
    cases h
    refine ⟨[], rfl, nofun, nofun, ?_⟩
    rintro body ⟨⟩
    exact .inl refless_multipartSchema
  | state | params | cookies | headers | connectInfo =>
    cases h
    exact ⟨[], rfl, nofun, nofun, nofun⟩

/-- The extractors of a handler, in order. -/
theorem asks_extractors {extractors : List (Extractor ι)} {merged request : OpenApiRequest}
    {earlier : List Json}
    (hmerged : merged.All fun schema => Refless schema ∨ schema ∈ earlier)
    (h : (extractors.foldlM (fun request extractor => do
        return OpenApiRequest.merge request (← extractor.openapiRequest (derived inputs fuel)))
        merged : Gen ι _) r = some (request, r')) :
    ∃ answers, (extractors.flatMap Extractor.asked).mapM (ask (derived inputs fuel)) r =
        some (answers, r') ∧
      request.All fun schema => Refless schema ∨ schema ∈ earlier ++ answers := by
  induction extractors generalizing merged r earlier with
  | nil =>
    cases h
    exact ⟨[], rfl, by simpa using hmerged⟩
  | cons extractor extractors ih =>
    rw [List.foldlM_cons] at h
    obtain ⟨merged', r₁, hfirst, hrest⟩ := eq_some_of_bind h
    obtain ⟨other, r₂, hother, heq⟩ := eq_some_of_bind hfirst
    cases heq
    obtain ⟨answers, hrun, hall⟩ := asks_extractor hother
    have hleft : merged.All fun schema => Refless schema ∨ schema ∈ earlier ++ answers :=
      hmerged.mono fun schema hschema => hschema.imp_right (List.mem_append_left _)
    have hright : other.All fun schema => Refless schema ∨ schema ∈ earlier ++ answers :=
      hall.mono fun schema hschema => hschema.imp_right (List.mem_append_right _)
    obtain ⟨answers', hrun', hall'⟩ := ih (hleft.merge hright) hrest
    refine ⟨answers ++ answers', ?_, ?_⟩
    · rw [List.flatMap_cons]
      exact mapM_append_eq_some hrun hrun'
    · rw [← List.append_assoc]
      exact hall'

theorem asks_signature {signature : Signature ι} {request : OpenApiRequest}
    (h : signature.openapiRequest (derived inputs fuel) r = some (request, r')) :
    ∃ answers, (signature.extractors.flatMap Extractor.asked).mapM (ask (derived inputs fuel)) r =
        some (answers, r') ∧
      request.All fun schema => Refless schema ∨ schema ∈ answers := by
  have hempty : OpenApiRequest.empty.All fun schema => Refless schema ∨ schema ∈ ([] : List Json) :=
    ⟨nofun, nofun, nofun⟩
  simpa using asks_extractors hempty h

/-! ## Runs -/

/-- The references of an operation resolve. -/
structure Operation.Resolves (r : SchemaRegistry ι) (operation : Operation) : Prop where
  response : ∀ schema ∈ operation.responseSchema, Components.Resolves r schema
  request : operation.request.All (Components.Resolves r)

omit [DecidableEq ι] in
theorem Operation.Resolves.edit {operation operation' : Operation} (h : operation.Resolves r)
    (hedit : operation.Edit operation') : operation'.Resolves r where
  response := by
    rw [hedit.schema]
    exact h.response
  request :=
    { pathSchemas := by
        rw [hedit.pathSchemas]
        exact h.request.pathSchemas
      parameters := by
        rw [hedit.parameters]
        exact h.request.parameters
      body := by
        rcases hedit.body with hbody | ⟨fields, hbody⟩
        · rw [hbody]
          exact h.request.body
        · rw [hbody]
          rintro body ⟨⟩
          exact (refless_multipartFields fields).citesOnly }

/-- What a run keeps, unless it finds a conflict of names or drops a route. -/
structure AppDoc.Accounts (inputs : ι → DeriveInput ι) (asked : List (Asked ι)) (doc : AppDoc ι H M) :
    Prop where
  schemas : Components.Accounts inputs asked doc.schemas
  operations : ∀ operation ∈ doc.operations, operation.Resolves doc.schemas

/-- A call keeps it. -/
theorem AppDoc.Accounts.step {group : Option Text} {c : DocCall ι H M} {doc doc' : AppDoc ι H M}
    (hstep : c.Step (derived inputs fuel) group doc doc')
    (h : doc.schemas.conflicts = [] → doc.app.routeError = none → doc.Accounts inputs asked)
    (hconflicts : doc'.schemas.conflicts = []) (hnone : doc'.app.routeError = none) :
    doc.schemas.conflicts = [] ∧ doc.app.routeError = none ∧
      doc'.Accounts inputs (asked ++ (c.registered group).toList.flatMap fun r => r.signature.asked) := by
  cases hstep with
  | drops error => simp at hnone
  | registers r app segments limit schema request schemas₁ schemas₂ hr _ _ _ _ herror _ _ hresponse
      hrequest _ =>
    obtain ⟨answers, hfirst, hschema⟩ := asks_response hresponse
    obtain ⟨answers', hsecond, hall⟩ := asks_signature hrequest
    have hcalls := mapM_append_eq_some hfirst hsecond
    -- no conflict was found before
    have hbefore := (conflictsStay_calls fuel r.signature.asked _ _ _ hcalls).eq_nil hconflicts
    refine ⟨hbefore, herror ▸ hnone, ?_⟩
    obtain ⟨haccounts, hresolves⟩ := h hbefore (herror ▸ hnone)
    obtain ⟨haccounts', hstep, hanswers⟩ := haccounts.run hcalls hconflicts
    rw [hr, Option.toList_some, List.flatMap_singleton]
    refine ⟨haccounts', ?_⟩
    rw [List.forall_mem_append, List.forall_mem_singleton]
    rw [List.forall_mem_append] at hanswers
    constructor
    · intro operation hoperation
      have hold := hresolves operation hoperation
      exact ⟨fun schema hmem => (hold.response schema hmem).mono haccounts.requests hstep,
        hold.request.mono fun schema => Resolves.mono haccounts.requests hstep⟩
    · refine ⟨fun schema' hmem => hanswers.1 schema' (hschema schema' hmem), ?_⟩
      apply hall.mono
      rintro schema' (hrefless | hmem)
      · exact hrefless.citesOnly
      · exact hanswers.2 schema' hmem
  | edits _ hr _ _ herror hoperations hschemas =>
    refine ⟨hschemas ▸ hconflicts, herror ▸ hnone, ?_⟩
    obtain ⟨haccounts, hresolves⟩ := h (hschemas ▸ hconflicts) (herror ▸ hnone)
    rw [hr, Option.toList_none, List.flatMap_nil, List.append_nil]
    refine ⟨hschemas ▸ haccounts, ?_⟩
    rw [hschemas]
    intro operation' hoperation'
    obtain ⟨operation, hoperation, hedit⟩ := forall₂_exists hoperations operation' hoperation'
    exact (hresolves operation hoperation).edit hedit

theorem closed_run {p : DocProgram ι H M} {doc : AppDoc ι H M}
    (h : p.run (derived inputs fuel) none .new = .ok doc) : doc.schemas.conflicts = [] →
    doc.app.routeError = none → doc.Accounts inputs p.asked := by
  refine DocProgram.run_induction (motive := fun registered doc => doc.schemas.conflicts = [] →
    doc.app.routeError = none → doc.Accounts inputs (registered.flatMap fun r => r.signature.asked))
    ?_ ?_ h
  · exact fun _ _ => ⟨accounts_document, nofun⟩
  · intro group c doc doc' registered ih hrun hconflicts hnone
    rw [List.flatMap_append]
    exact (AppDoc.Accounts.step (DocCall.step_of_run hrun) ih hconflicts hnone).2.2

end Asking

/-! ## The document -/

/-- Every reference of the schema is the key of a component. -/
def Document.Resolves (document : Document) (schema : Json) : Prop :=
  CitesOnly (fun text => ∃ n, text = "#/components/schemas/" ++ n ∧
    (document.schemas.lookup n).isSome = true) schema

/-- No reference of the document dangles. -/
structure Document.Closed (document : Document) : Prop where
  components : ∀ n schema, document.schemas.lookup n = some schema → document.Resolves schema
  parameters : ∀ path method object, document.operation path method = some object →
    ∀ parameter ∈ object.parameters, document.Resolves parameter.schema
  bodies : ∀ path method object, document.operation path method = some object →
    ∀ body ∈ object.requestBody, document.Resolves body.schema
  responses : ∀ path method object, document.operation path method = some object →
    ∀ code response, object.responses.lookup code = some response →
      ∀ schema ∈ response.schema, document.Resolves schema

theorem refless_problemSchema : Refless problemSchema := by
  have hproperty : ∀ entries : Entries, (∀ e ∈ entries, e.1 ∉ citingKeys) →
      Refless (.object entries) := fun entries h => citesOnly_annotations h
  apply citesOnly_object
  rw [List.forall_mem_cons, List.forall_mem_cons, List.forall_mem_singleton]
  refine ⟨entryCitesOnly_of_notMem (by decide : "type" ∉ citingKeys) _,
    entryCitesOnly_of_notMem (by decide : "required" ∉ citingKeys) _, ?_⟩
  apply entryCitesOnly_properties
  show ∀ e ∈ Entries.insert _ _ (Entries.insert _ _ (Entries.insert _ _ (Entries.insert _ _ []))),
    Refless e.2
  refine forall_mem_insert (forall_mem_insert (forall_mem_insert (forall_mem_insert nofun ?_) ?_) ?_) ?_
  · exact hproperty _ (by decide)
  · exact hproperty _ (by decide)
  · exact hproperty _ (by decide)
  · exact hproperty _ (by decide)

section Document

variable {doc : AppDoc ι H M}

/-- Routes without errors are those for which nothing is declared or derived. -/
theorem AppDoc.errors_isEmpty (doc : AppDoc ι H M) (route : Route H) :
    (!(doc.errors route).isEmpty) = (!route.operation.problemResponses.isEmpty ||
      doc.documentsErrors &&
        !(frameworkErrors route.operation route.plan.bodyMode doc.defaultSecured).isEmpty) := by
  unfold errors
  cases doc.documentsErrors with
  | false => simp
  | true =>
    generalize frameworkErrors route.operation route.plan.bodyMode doc.defaultSecured = codes
    cases codes <;> simp

/-- What `validate_schemas` has checked. -/
theorem AppDoc.validateSchemas_eq_none (h : doc.validateSchemas = none) :
    doc.schemas.conflicts = [] ∧ ((∃ route ∈ doc.routes, doc.errors route ≠ []) →
      doc.schemas.definitions.lookup "Problem" = none) := by
  unfold validateSchemas at h
  cases hconflicts : doc.schemas.conflicts with
  | cons name names =>
    rw [hconflicts] at h
    cases h
  | nil =>
    rw [hconflicts] at h
    refine ⟨rfl, ?_⟩
    rintro ⟨route, hroute, herrors⟩
    by_contra hproblem
    have hany : (doc.routes.any fun route => !route.operation.problemResponses.isEmpty ||
        doc.documentsErrors && !(frameworkErrors route.operation route.plan.bodyMode
          doc.defaultSecured).isEmpty) = true := by
      refine List.any_eq_true.mpr ⟨route, hroute, ?_⟩
      rw [← doc.errors_isEmpty]
      simpa using herrors
    simp only [hany, Option.isSome_iff_ne_none.mpr hproblem] at h
    cases h

/-- The components of the document: those of the registry, and the problem of the framework. -/
theorem AppDoc.lookup_schemas (h : doc.validateSchemas = none) (n : String) (schema : Json) :
    doc.document.schemas.lookup n = some schema ↔ doc.schemas.definitions.lookup n = some schema ∨
      n = "Problem" ∧ schema = problemSchema ∧ ∃ route ∈ doc.routes, doc.errors route ≠ [] := by
  have hany : (doc.routes.any fun route => !(doc.errors route).isEmpty) = true ↔
      ∃ route ∈ doc.routes, doc.errors route ≠ [] := by
    simp [List.any_eq_true]
  unfold document
  by_cases herrors : ∃ route ∈ doc.routes, doc.errors route ≠ []
  · have hproblem := (validateSchemas_eq_none h).2 herrors
    rw [if_pos (by simp [hany.mpr herrors, hproblem]), Table.lookup_insert]
    constructor
    · intro hlookup
      split at hlookup
      · cases hlookup
        exact .inr ⟨‹_›, rfl, herrors⟩
      · exact .inl hlookup
    · rintro (hlookup | ⟨rfl, rfl, -⟩)
      · rw [if_neg]
        · exact hlookup
        · rintro rfl
          rw [hproblem] at hlookup
          cases hlookup
      · rw [if_pos rfl]
  · rw [if_neg (by simp [mt hany.mp herrors])]
    exact ⟨.inl, fun hlookup => hlookup.resolve_right fun hboth => herrors hboth.2.2⟩

theorem AppDoc.document_resolves (h : doc.validateSchemas = none) {schema : Json}
    (hschema : Components.Resolves doc.schemas schema) : doc.document.Resolves schema := by
  refine CitesOnly.mono ?_ hschema
  rintro text ⟨n, rfl, hn⟩
  obtain ⟨schema, hlookup⟩ := Option.isSome_iff_exists.mp hn
  refine ⟨n, rfl, ?_⟩
  rw [(lookup_schemas h n schema).mpr (.inl hlookup)]
  rfl

/-- A response is that of the handler, or an error that is listed. -/
theorem AppDoc.lookup_responses {route : Route H} {code : ℕ} {response : ResponseObject}
    (h : (doc.responses route).lookup code = some response) :
    response.schema = route.operation.responseSchema ∨
      response.schema = some (Schema.reference "Problem") ∧ code ∈ doc.errors route := by
  have key : ∀ (codes : List ℕ) (start : Table ℕ ResponseObject),
      (codes.foldl (fun responses code => responses.insert code
        { description := (canonicalReason code).getD "Error"
          schema := some (Schema.reference "Problem") }) start).lookup code = some response →
      start.lookup code = some response ∨
        response.schema = some (Schema.reference "Problem") ∧ code ∈ codes := by
    intro codes
    induction codes with
    | nil => exact fun start hstart => .inl hstart
    | cons first codes ih =>
      intro start hstart
      rcases ih _ hstart with hlookup | ⟨hschema, hmem⟩
      · rw [Table.lookup_insert] at hlookup
        split at hlookup
        · cases hlookup
          exact .inr ⟨rfl, by rw [‹code = first›]; exact List.mem_cons_self⟩
        · exact .inl hlookup
      · exact .inr ⟨hschema, List.mem_cons_of_mem _ hmem⟩
  rcases key _ _ h with hlookup | herror
  · rw [Table.lookup_insert] at hlookup
    split at hlookup
    · cases hlookup
      exact .inl rfl
    · cases hlookup
  · exact .inr herror

theorem AppDoc.operation_mem {route : Route H} (h : route ∈ doc.allRoutes) :
    route.operation ∈ doc.operations := by
  obtain ⟨⟨md, operation, plan⟩, hzip, rfl⟩ := List.mem_map.mp h
  exact (List.of_mem_zip (List.of_mem_zip hzip).2).1

variable [DecidableEq ι] {inputs : ι → DeriveInput ι} {fuel : ℕ} {p : DocProgram ι H M}
  {render : Document → H} {page : H} {built : App H M}

/-- **The served document is closed.** Whatever a program registers, describes and configures, in any
order: if `build` lets it pass, every reference in the parameters, bodies and responses of its
operations and in its components is the key of a component; the components are the outputs of the
types that the routes reach and the request forms of those that requests reach and that differ; and
where errors are listed, `Problem` is the framework's schema and no type of the program. -/
theorem document_closed (hbuild : p.build (derived inputs fuel) render page = .ok (doc, built)) :
    doc.document.Closed ∧
      (∀ n schema, doc.document.schemas.lookup n = some schema ↔ Defines inputs p.asked n schema ∨
        n = "Problem" ∧ schema = problemSchema ∧ ∃ route ∈ doc.routes, doc.errors route ≠ []) ∧
      ((∃ route ∈ doc.routes, doc.errors route ≠ []) →
        ∀ i, Reached inputs p.asked i → (inputs i).component? ≠ some "Problem") := by
  obtain ⟨hrun, hinstall⟩ := DocProgram.build_ok hbuild
  obtain ⟨hnone, hschemas, -⟩ := AppDoc.install_ok hinstall
  obtain ⟨haccounts, hoperations⟩ :=
    closed_run hrun (AppDoc.validateSchemas_eq_none hschemas).1 hnone
  have hresolves : ∀ {schema}, Components.Resolves doc.schemas schema → doc.document.Resolves schema :=
    AppDoc.document_resolves hschemas
  have hlookup : ∀ n schema, doc.document.schemas.lookup n = some schema ↔
      Defines inputs p.asked n schema ∨
        n = "Problem" ∧ schema = problemSchema ∧ ∃ route ∈ doc.routes, doc.errors route ≠ [] := by
    intro n schema
    rw [AppDoc.lookup_schemas hschemas, haccounts.lookup_iff]
  -- an operation of the document is that of a route
  have hobject : ∀ {path method object}, doc.document.operation path method = some object →
      ∃ route ∈ doc.allRoutes, route.operation.Resolves doc.schemas ∧
        doc.operationObject route = object := by
    intro path method object hobject
    obtain ⟨route, hroute, -, -, heq⟩ := (operation_iff hrun hnone path method object).mp hobject
    exact ⟨route, hroute, hoperations _ (AppDoc.operation_mem hroute), heq⟩
  refine ⟨⟨?_, ?_, ?_, ?_⟩, hlookup, ?_⟩
  · intro n schema hn
    rcases (AppDoc.lookup_schemas hschemas n schema).mp hn with hn | ⟨-, rfl, -⟩
    · exact hresolves (haccounts.resolves hn)
    · exact refless_problemSchema.citesOnly
  · intro path method object h parameter hparameter
    obtain ⟨route, -, hroute, rfl⟩ := hobject h
    rcases List.mem_append.mp hparameter with hparameter | hparameter
    · exact hresolves (hroute.request.parameters parameter hparameter)
    · -- a capture, with the schema of an extractor or without
      obtain ⟨⟨name, index⟩, -, rfl⟩ := List.mem_map.mp hparameter
      show doc.document.Resolves (route.operation.request.pathSchemas[index]?.getD _)
      cases hschema : route.operation.request.pathSchemas[index]? with
      | none => exact citesOnly_annotations (by decide)
      | some schema =>
        exact hresolves (hroute.request.pathSchemas schema (List.mem_of_getElem? hschema))
  · intro path method object h body hbody
    obtain ⟨route, -, hroute, rfl⟩ := hobject h
    exact hresolves (hroute.request.body body hbody)
  · intro path method object h code response hresponse schema hschema
    obtain ⟨route, hmem, hroute, rfl⟩ := hobject h
    rcases AppDoc.lookup_responses hresponse with hsuccess | ⟨herror, hcode⟩
    · rw [hsuccess] at hschema
      exact hresolves (hroute.response schema hschema)
    · rw [herror] at hschema
      cases hschema
      have herrors : ∃ route ∈ doc.routes, doc.errors route ≠ [] := by
        refine ⟨route, ?_, List.ne_nil_of_mem hcode⟩
        rw [routes_eq hrun hnone]
        exact hmem
      refine citesOnly_reference ⟨"Problem", rfl, ?_⟩
      rw [(hlookup "Problem" problemSchema).mpr (.inr ⟨rfl, rfl, herrors⟩)]
      rfl
  · intro herrors i hreached hname
    obtain ⟨output, houtput, -⟩ := haccounts.requests.exists_output hname
      (haccounts.defined_of_reached hreached hname)
    rw [(AppDoc.validateSchemas_eq_none hschemas).2 herrors] at houtput
    cases houtput

/-- The scheme is declared. -/
def Document.Declares (document : Document) (name : Text) : Prop :=
  ∃ scheme, (name, scheme) ∈ document.securitySchemes

omit [DecidableEq ι] in
/-- What `validate_security` has checked. -/
theorem AppDoc.declares_of_validateSecurity (henabled : doc.app.openapiConfig.isSome = true)
    (h : doc.validateSecurity = none) :
    (∀ names ∈ doc.document.security, ∀ name ∈ names, doc.document.Declares name) ∧
      ∀ route ∈ doc.routes, ∀ requirements ∈ route.operation.security, ∀ names ∈ requirements,
        ∀ name ∈ names, doc.document.Declares name := by
  obtain ⟨path, hpath⟩ := Option.isSome_iff_exists.mp henabled
  have hconfig : doc.config = some doc.settings := by
    rw [config, hpath]
    rfl
  have hsecurity : doc.document.security = doc.settings.defaultSecurity := by
    rw [document, hconfig]
    rfl
  have hschemes : doc.document.securitySchemes = doc.settings.securitySchemes := by
    rw [document, hconfig]
    rfl
  rw [validateSecurity, hconfig, Option.bind_some, Option.map_eq_none_iff, List.find?_eq_none] at h
  have hdeclared : ∀ names ∈ doc.settings.defaultSecurity ++
      (doc.routes.filterMap fun route => route.operation.security).flatten, ∀ name ∈ names,
      doc.document.Declares name := by
    intro names hnames name hname
    have hknown := h name (List.mem_flatten.mpr ⟨names, hnames, hname⟩)
    simp only [Bool.not_eq_true', Bool.not_eq_false, List.any_eq_true, beq_iff_eq] at hknown
    obtain ⟨⟨_, scheme⟩, hmem, rfl⟩ := hknown
    exact ⟨scheme, hschemes ▸ hmem⟩
  constructor
  · intro names hnames
    rw [hsecurity] at hnames
    exact hdeclared names (List.mem_append_left _ hnames)
  · intro route hroute requirements hrequirements names hnames
    apply hdeclared names
    refine List.mem_append_right _ (List.mem_flatten.mpr ⟨requirements, ?_, hnames⟩)
    exact List.mem_filterMap.mpr ⟨route, hroute, hrequirements⟩

theorem mem_pathParameters {segments : List Segment} {pathSchemas : List Json} {parameter : Parameter}
    (h : parameter ∈ pathParameters segments pathSchemas) :
    parameter.location = .path ∧ parameter.required = true ∧
      parameter.name ∈ App.captureNames segments := by
  obtain ⟨⟨name, index⟩, hmem, rfl⟩ := List.mem_map.mp h
  exact ⟨rfl, rfl, (List.mem_zipIdx hmem).2.2 ▸ List.getElem_mem _⟩

/-- **The served document lists what was registered.** Its operations are those of the routes that the
program registers, in groups or not; the path parameters of an operation are all required, and they
are the captures of its path; and every scheme that a requirement names is declared. -/
theorem document_lists (hbuild : p.build (derived inputs fuel) render page = .ok (doc, built))
    (henabled : doc.app.openapiConfig.isSome = true) :
    (∀ path method, (doc.document.operation path method).isSome = true ↔
      ∃ r ∈ p.registered, r.template = path ∧ AppDoc.methodKey r.method = method) ∧
      (∀ names ∈ doc.document.security, ∀ name ∈ names, doc.document.Declares name) ∧
        ∀ path method object, doc.document.operation path method = some object →
          (∃ segments, parseTemplate path = .ok segments ∧ ∀ name,
            name ∈ App.captureNames segments ↔
              ∃ parameter ∈ object.parameters, parameter.location = .path ∧ parameter.name = name) ∧
            (∀ parameter ∈ object.parameters, parameter.location = .path → parameter.required = true) ∧
              ∀ requirements ∈ object.security, ∀ names ∈ requirements, ∀ name ∈ names,
                doc.document.Declares name := by
  obtain ⟨hrun, hinstall⟩ := DocProgram.build_ok hbuild
  obtain ⟨hnone, -, hsecurity⟩ := AppDoc.install_ok hinstall
  obtain ⟨hdefault, hroutes⟩ := AppDoc.declares_of_validateSecurity henabled hsecurity
  have hdescribes := (describes_run hrun).2 hnone
  refine ⟨?_, hdefault, ?_⟩
  · intro path method
    rw [Option.isSome_iff_exists]
    constructor
    · rintro ⟨object, hobject⟩
      obtain ⟨route, hroute, rfl, rfl, -⟩ := (operation_iff hrun hnone path method object).mp hobject
      obtain ⟨r, hr, h⟩ := forall₂_exists hdescribes route hroute
      refine ⟨r, hr, ?_⟩
      rw [h.metadata]
      exact ⟨rfl, rfl⟩
    · rintro ⟨r, hr, rfl, rfl⟩
      obtain ⟨route, hroute, h⟩ := forall₂_exists hdescribes.flip r hr
      refine ⟨doc.operationObject route, (operation_iff hrun hnone _ _ _).mpr ⟨route, hroute, ?_⟩⟩
      rw [h.metadata]
      exact ⟨rfl, rfl, rfl⟩
  · intro path method object hobject
    obtain ⟨route, hroute, rfl, -, rfl⟩ := (operation_iff hrun hnone path method object).mp hobject
    obtain ⟨r, hr, h⟩ := forall₂_exists hdescribes route hroute
    have htemplate : route.md.template = r.template := by
      rw [h.metadata]
      rfl
    -- the extractors have no parameters in the path
    have hextractors : ∀ parameter ∈ route.operation.request.parameters, parameter.location ≠ .path :=
      Signature.location_parameters h.parameters
    refine ⟨⟨route.md.segments, by rw [htemplate, h.parsed], ?_⟩, ?_, ?_⟩
    · intro name
      have hkeys := map_key_pathParameters route.md.segments route.operation.request.pathSchemas
      constructor
      · intro hname
        have hkey := List.mem_map_of_mem (f := fun name => (Location.path, name)) hname
        rw [← hkeys] at hkey
        obtain ⟨parameter, hparameter, heq⟩ := List.mem_map.mp hkey
        exact ⟨parameter, List.mem_append_right _ hparameter, (Prod.mk.inj heq).1, (Prod.mk.inj heq).2⟩
      · rintro ⟨parameter, hparameter, hlocation, rfl⟩
        rcases List.mem_append.mp hparameter with hparameter | hparameter
        · exact absurd hlocation (hextractors parameter hparameter)
        · exact (mem_pathParameters hparameter).2.2
    · intro parameter hparameter hlocation
      rcases List.mem_append.mp hparameter with hparameter | hparameter
      · exact absurd hlocation (hextractors parameter hparameter)
      · exact (mem_pathParameters hparameter).2.1
    · apply hroutes
      rw [routes_eq hrun hnone]
      exact hroute

end Document

/-! ## A program -/

/-- Orders are read and created, by users with a token. -/
def ordersProgram : DocProgram (Fin 2) Unit Unit :=
  .call (.security [str "bearerAuth"])
    (.group (str "/api")
      (.call (.route .post (str "/orders")
          { extractors := [.json (.named ⟨0, Nat.two_pos⟩)], response := .created (.named ⟨0, Nat.two_pos⟩) } ())
        (.call (.route .get (str "/orders/{id}")
            { extractors := [.path (.scalar (.int .u64))]
              response := .result (.json (.option (.named ⟨0, Nat.two_pos⟩))) } ())
          (.call (.security [str "bearerAuth"]) (.call (.problemResponses [404]) .done))))
      (.call (.openapi (some (.securityScheme (str "bearerAuth") (.http (str "bearer") none)))) .done))

def ordersBuilt : AppDoc (Fin 2) Unit Unit × App Unit Unit :=
  returned (ordersProgram.build (derived orders 9) (fun _ => ()) ()) (by decide +kernel)

theorem build_orders :
    ordersProgram.build (derived orders 9) (fun _ => ()) () = .ok (ordersBuilt.1, ordersBuilt.2) := by
  rw [Prod.mk.eta, ordersBuilt]
  exact eq_returned _

theorem document_closed_orders :
    ordersBuilt.1.document.Closed ∧
      (∃ body, Defines orders ordersProgram.asked "OrderInput" body) ∧
        ordersBuilt.1.document.schemas.lookup "Problem" = some problemSchema ∧
          ∀ i, Reached orders ordersProgram.asked i → (orders i).component? ≠ some "Problem" := by
  obtain ⟨hclosed, hlookup, hproblem⟩ := document_closed build_orders
  have hinput : (ordersBuilt.1.document.schemas.lookup "OrderInput").isSome = true := by
    decide +kernel
  obtain ⟨body, hbody⟩ := Option.isSome_iff_exists.mp hinput
  have herrors : ∃ route ∈ ordersBuilt.1.routes, ordersBuilt.1.errors route ≠ [] := by
    decide +kernel
  refine ⟨hclosed, ⟨body, ?_⟩, ?_, hproblem herrors⟩
  · rcases (hlookup "OrderInput" body).mp hbody with hdefines | ⟨hname, -⟩
    · exact hdefines
    · exact absurd hname (by decide)
  · exact (hlookup "Problem" problemSchema).mpr (.inr ⟨rfl, rfl, herrors⟩)

/-- An operation in the group, its capture and its scheme. -/
theorem document_lists_orders :
    let document := ordersBuilt.1.document
    ((document.operation (str "/api/orders/{id}") (str "get")).isSome = true ↔
        ∃ r ∈ ordersProgram.registered, r.template = str "/api/orders/{id}" ∧
          AppDoc.methodKey r.method = str "get") ∧
      ∃ object, document.operation (str "/api/orders/{id}") (str "get") = some object ∧
        (∃ parameter ∈ object.parameters, parameter.location = .path ∧ parameter.name = str "id" ∧
          parameter.required = true) ∧
        object.security = some [[str "bearerAuth"]] ∧ document.Declares (str "bearerAuth") := by
  intro document
  obtain ⟨hlists, -, hobjects⟩ := document_lists build_orders (by decide +kernel)
  refine ⟨hlists _ _, ?_⟩
  have hsecurity : (document.operation (str "/api/orders/{id}") (str "get")).map
      OperationObject.security = some (some [[str "bearerAuth"]]) := by
    decide +kernel
  obtain ⟨object, hobject, hrequires⟩ := Option.map_eq_some_iff.mp hsecurity
  obtain ⟨⟨segments, hparsed, hcaptures⟩, hrequired, hdeclared⟩ := hobjects _ _ object hobject
  have hid : str "id" ∈ App.captureNames segments := by
    have hnames : (parseTemplate (str "/api/orders/{id}")).map App.captureNames = .ok [str "id"] := by
      decide +kernel
    rw [hparsed] at hnames
    rw [Except.ok.inj hnames]
    exact List.mem_singleton_self _
  obtain ⟨parameter, hparameter, hlocation, hname⟩ := (hcaptures _).mp hid
  exact ⟨object, hobject,
    ⟨parameter, hparameter, hlocation, hname, hrequired parameter hparameter hlocation⟩, hrequires,
    hdeclared _ hrequires _ (List.mem_singleton_self _) _ (List.mem_singleton_self _)⟩

end OasRs
