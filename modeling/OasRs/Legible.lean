import OasRs.Answers
import OasRs.JsonMap

/-!
# A Type that Differs Keeps Differing

The request form of a type differs from its output when the two bodies do. While types are being
built, more and more types are found to differ, and a body is built again with other references.
That never makes the two bodies equal: what a body shows of an answer can be read off it.

## Main results

- `Legible`: a request body that equals the output still does with some answers put back
- `Body.changed_mono`: a type that differs still does when more types differ
-/

namespace OasRs.Schema

open Lib SchemaRegistry

variable {ι : Type}

/-! ## Reading answers off a body -/

/-- The answers at one place of a body: when its type was found to differ, now, and for the
    output. -/
structure Place where
  before : Json
  now : Json
  output : Json

/-- What can have happened to an answer since: a type that was not known to differ was answered with
    its output, and may be answered otherwise now. -/
def Place.Allowed : Ask ι → Place → Prop
  | .mention _, place => place.before = place.now ∨ place.before = place.output
  | .flattened _, place => place.before = place.now

/-- If the request body `p` equals the output body `p'` now, it did before. -/
def Legible {α : Type} (p p' : Plan (Ask ι) Json α) : Prop :=
  ∀ places : List Place, List.Forall₂ Place.Allowed p.asks places →
    p.answer (places.map Place.now) = p'.answer (places.map Place.output) →
    p.answer (places.map Place.before) = p'.answer (places.map Place.output)

section Rules

variable {α β : Type}

theorem legible_const (a b : α) : Legible (ι := ι) (.const a) (.const b) := fun _ _ h => h

/-- A single answer is either the one of now or that of the output. -/
theorem legible_single {p : Plan (Ask ι) Json α} (h : p.asks.length ≤ 1) : Legible p p := by
  intro places hplaces hnow
  match hasks : p.asks with
  | [] =>
    rw [hasks] at hplaces
    cases hplaces
    rfl
  | [q] =>
    rw [hasks] at hplaces
    obtain ⟨place, _, hallowed, hnil, rfl⟩ := List.forall₂_cons_left_iff.mp hplaces
    cases hnil
    cases q with
    | mention k =>
      rcases hallowed with hbefore | hbefore
      · simpa [hbefore] using hnow
      · simp [hbefore]
    | flattened k =>
      have hbefore : place.before = place.now := hallowed
      simpa [hbefore] using hnow
  | _ :: _ :: _ =>
    rw [hasks] at h
    simp at h

theorem legible_map {f : α → β} (hf : Function.Injective f) {p p' : Plan (Ask ι) Json α}
    (h : Legible p p') : Legible (p.map f) (p'.map f) :=
  fun places hplaces hnow => congrArg f (h places hplaces (hf hnow))

theorem legible_seq {p p' : Plan (Ask ι) Json α} {q q' : Plan (Ask ι) Json β} (hp : Legible p p')
    (hq : Legible q q') (hasks : p'.asks = p.asks) : Legible (p.seq q) (p'.seq q') := by
  intro places hplaces hnow
  have hfirst : List.Forall₂ Place.Allowed p.asks (places.take p.asks.length) := by
    have htake := List.forall₂_take p.asks.length hplaces
    rwa [Plan.asks_seq, List.take_left] at htake
  have hrest : List.Forall₂ Place.Allowed q.asks (places.drop p.asks.length) := by
    have hdrop := List.forall₂_drop p.asks.length hplaces
    rwa [Plan.asks_seq, List.drop_left] at hdrop
  simp only [Plan.seq, hasks, ← List.map_take, ← List.map_drop, Prod.mk.injEq] at hnow ⊢
  exact ⟨hp _ hfirst hnow.1, hq _ hrest hnow.2⟩

theorem legible_list {ps ps' : List (Plan (Ask ι) Json α)}
    (h : List.Forall₂ (fun p p' => Legible p p' ∧ p'.asks = p.asks) ps ps') :
    Legible (.list ps) (.list ps') := by
  induction h with
  | nil => exact legible_const _ _
  | cons hp _ ih =>
    have hinjective : Function.Injective fun a : α × List α => a.1 :: a.2 := by
      rintro ⟨a, as⟩ ⟨b, bs⟩ heq
      cases heq
      rfl
    exact legible_map hinjective (legible_seq hp.1 ih hp.2)

end Rules

/-! ## Objects -/

section Objects

/-- The properties that fields write, in order, from the answers. -/
def writtenProperties : List (StructField ι) → List Json → Entries
  | [], _ => []
  | field :: fields, answers =>
    if field.skipped || field.flatten then
      writtenProperties fields (answers.drop field.asks.length)
    else
      (field.wire, field.direction (field.doc.decorate
        ((field.type.plan .mention).answer (answers.take field.asks.length)))) ::
          writtenProperties fields (answers.drop field.asks.length)

/-- What the fields do to the parts, from the answers. -/
def updates (request containerDefault : Bool) (fields : List (StructField ι)) (answers : List Json) :
    List (ObjectParts → ObjectParts) :=
  (Plan.list (fields.map (StructField.plan request containerDefault))).answer answers

/-- The parts of an object, from the answers. -/
def partsFrom (request containerDefault : Bool) (fields : List (StructField ι)) (answers : List Json)
    (parts : ObjectParts) : ObjectParts :=
  (updates request containerDefault fields answers).foldl (fun parts update => update parts) parts

theorem partsFrom_cons (request containerDefault : Bool) (field : StructField ι)
    (fields : List (StructField ι)) (answers : List Json) (parts : ObjectParts) :
    partsFrom request containerDefault (field :: fields) answers parts =
      partsFrom request containerDefault fields (answers.drop field.asks.length)
        ((field.plan request containerDefault).answer (answers.take field.asks.length) parts) := by
  unfold partsFrom updates
  rw [List.map_cons, ← StructField.asks_plan request containerDefault field]
  rfl

section Field

variable {request containerDefault : Bool} {field : StructField ι} (answers : List Json)
  (parts : ObjectParts)

theorem plan_of_skipped (hskip : field.skipped = true) :
    (field.plan request containerDefault).answer answers parts = parts := by
  unfold StructField.plan
  rw [if_pos hskip]
  rfl

theorem plan_of_flatten (hskip : field.skipped = false) (hflatten : field.flatten = true) :
    (field.plan request containerDefault).answer answers parts =
      flattenSchema parts ((field.type.optionInner.1.plan .flattened).answer answers)
        field.type.optionInner.2 := by
  unfold StructField.plan
  rw [hskip, if_neg Bool.false_ne_true, if_pos hflatten]
  rfl

theorem plan_of_listed (hskip : field.skipped = false) (hflatten : field.flatten = false) :
    (field.plan request containerDefault).answer answers parts =
      parts.add field request containerDefault
        (field.direction (field.doc.decorate ((field.type.plan .mention).answer answers))) := by
  unfold StructField.plan
  rw [hskip, hflatten, if_neg Bool.false_ne_true, if_neg Bool.false_ne_true]
  rfl

end Field

theorem map_before_of_flatten {field : StructField ι} {places : List Place}
    (hskip : field.skipped = false) (hflatten : field.flatten = true)
    (hplaces : List.Forall₂ Place.Allowed field.asks places) :
    places.map Place.before = places.map Place.now := by
  unfold StructField.asks at hplaces
  rw [hskip, if_neg Bool.false_ne_true, if_pos hflatten] at hplaces
  unfold RustType.asks at hplaces
  cases hnamed : field.type.named? with
  | none =>
    rw [hnamed] at hplaces
    cases hplaces
    rfl
  | some k =>
    rw [hnamed] at hplaces
    obtain ⟨place, rest, hallowed, hnil, rfl⟩ := List.forall₂_cons_left_iff.mp hplaces
    cases hnil
    exact congrArg (fun schema => [schema]) hallowed

/-- The properties that are written end up in the object. -/
theorem properties_partsFrom (request containerDefault : Bool) (fields : List (StructField ι))
    (answers : List Json) (parts : ObjectParts) :
    (partsFrom request containerDefault fields answers parts).properties =
      (writtenProperties fields answers).foldl
        (fun m e => Entries.insert e.1 e.2 m) parts.properties := by
  induction fields generalizing answers parts with
  | nil => rfl
  | cons field fields ih =>
    rw [partsFrom_cons, ih, writtenProperties]
    cases hskip : field.skipped with
    | true => rw [plan_of_skipped _ _ hskip, Bool.true_or, if_pos rfl]
    | false =>
      cases hflatten : field.flatten with
      | true =>
        rw [plan_of_flatten _ _ hskip hflatten, (flattenSchema_rest _ _ _).1, Bool.or_true, if_pos rfl]
      | false =>
        rw [plan_of_listed _ _ hskip hflatten, Bool.or_false, if_neg Bool.false_ne_true]
        rfl

/-- The rest of the parts does not depend on the answers for the types that are mentioned. -/
theorem rest_partsFrom {request containerDefault : Bool} {fields : List (StructField ι)}
    {places : List Place}
    (hplaces : List.Forall₂ Place.Allowed (fields.flatMap StructField.asks) places)
    {parts parts' : ObjectParts} (hrequired : parts.required = parts'.required)
    (hallOf : parts.allOf = parts'.allOf) (hschema : parts.schema = parts'.schema) :
    (partsFrom request containerDefault fields (places.map Place.before) parts).required =
        (partsFrom request containerDefault fields (places.map Place.now) parts').required ∧
      (partsFrom request containerDefault fields (places.map Place.before) parts).allOf =
        (partsFrom request containerDefault fields (places.map Place.now) parts').allOf ∧
      (partsFrom request containerDefault fields (places.map Place.before) parts).schema =
        (partsFrom request containerDefault fields (places.map Place.now) parts').schema := by
  induction fields generalizing places parts parts' with
  | nil => exact ⟨hrequired, hallOf, hschema⟩
  | cons field fields ih =>
    rw [List.flatMap_cons] at hplaces
    have hfirst : List.Forall₂ Place.Allowed field.asks (places.take field.asks.length) := by
      have htake := List.forall₂_take field.asks.length hplaces
      rwa [List.take_left] at htake
    have hrest : List.Forall₂ Place.Allowed (fields.flatMap StructField.asks)
        (places.drop field.asks.length) := by
      have hdrop := List.forall₂_drop field.asks.length hplaces
      rwa [List.drop_left] at hdrop
    rw [partsFrom_cons, partsFrom_cons, ← List.map_take, ← List.map_take, ← List.map_drop,
      ← List.map_drop]
    cases hskip : field.skipped with
    | true =>
      rw [plan_of_skipped _ _ hskip, plan_of_skipped _ _ hskip]
      exact ih hrest hrequired hallOf hschema
    | false =>
      cases hflatten : field.flatten with
      | true =>
        rw [plan_of_flatten _ _ hskip hflatten, plan_of_flatten _ _ hskip hflatten]
        -- the answer of a fresh inline registry is the same as before
        have hsame : (places.take field.asks.length).map Place.before =
            (places.take field.asks.length).map Place.now :=
          map_before_of_flatten hskip hflatten hfirst
        rw [hsame, flattenSchema_eq, flattenSchema_eq]
        split
        · exact ih hrest hrequired hallOf (by simp only [hschema])
        · exact ih hrest hrequired (by simp only [hallOf]) hschema
      | false =>
        rw [plan_of_listed _ _ hskip hflatten, plan_of_listed _ _ hskip hflatten]
        refine ih hrest ?_ hallOf hschema
        simp only [ObjectParts.add, hrequired]

/-- The property that a field writes. -/
def StructField.written (field : StructField ι) (answers : List Json) : Json :=
  field.direction (field.doc.decorate ((field.type.plan .mention).answer answers))

/-- A field asks for one type at most. -/
theorem StructField.written_before {field : StructField ι} {places : List Place}
    (hlisted : (field.skipped || field.flatten) = false)
    (hplaces : List.Forall₂ Place.Allowed field.asks places) :
    field.written (places.map Place.before) = field.written (places.map Place.now) ∨
      field.written (places.map Place.before) = field.written (places.map Place.output) := by
  rw [Bool.or_eq_false_iff] at hlisted
  unfold StructField.asks at hplaces
  rw [hlisted.1, hlisted.2, if_neg Bool.false_ne_true, if_neg Bool.false_ne_true] at hplaces
  unfold RustType.asks at hplaces
  cases hnamed : field.type.named? with
  | none =>
    rw [hnamed] at hplaces
    cases hplaces
    exact .inl rfl
  | some k =>
    rw [hnamed] at hplaces
    obtain ⟨place, rest, hallowed, hnil, rfl⟩ := List.forall₂_cons_left_iff.mp hplaces
    cases hnil
    exact hallowed.imp (fun h => congrArg (fun schema => field.written [schema]) h)
      fun h => congrArg (fun schema => field.written [schema]) h

/-- The properties that are written, each with the three answers that it is made of. -/
theorem exists_written {fields : List (StructField ι)} {places : List Place}
    (hplaces : List.Forall₂ Place.Allowed (fields.flatMap StructField.asks) places) :
    ∃ es : List (String × Place),
      (∀ e ∈ es, e.2.before = e.2.now ∨ e.2.before = e.2.output) ∧
      writtenProperties fields (places.map Place.before) = es.map (fun e => (e.1, e.2.before)) ∧
      writtenProperties fields (places.map Place.now) = es.map (fun e => (e.1, e.2.now)) ∧
      writtenProperties fields (places.map Place.output) = es.map (fun e => (e.1, e.2.output)) := by
  induction fields generalizing places with
  | nil => exact ⟨[], by simp, rfl, rfl, rfl⟩
  | cons field fields ih =>
    rw [List.flatMap_cons] at hplaces
    have hfirst : List.Forall₂ Place.Allowed field.asks (places.take field.asks.length) := by
      have htake := List.forall₂_take field.asks.length hplaces
      rwa [List.take_left] at htake
    have hrest : List.Forall₂ Place.Allowed (fields.flatMap StructField.asks)
        (places.drop field.asks.length) := by
      have hdrop := List.forall₂_drop field.asks.length hplaces
      rwa [List.drop_left] at hdrop
    obtain ⟨es, hes, hbefore, hnow, houtput⟩ := ih hrest
    simp only [writtenProperties, ← List.map_take, ← List.map_drop, hbefore, hnow, houtput]
    split
    · exact ⟨es, hes, rfl, rfl, rfl⟩
    · rename_i hlisted
      refine ⟨(field.wire,
        { before := field.written ((places.take field.asks.length).map Place.before)
          now := field.written ((places.take field.asks.length).map Place.now)
          output := field.written ((places.take field.asks.length).map Place.output) }) :: es,
        ?_, rfl, rfl, rfl⟩
      intro e he
      rcases List.mem_cons.mp he with rfl | he
      · exact StructField.written_before (Bool.eq_false_iff.mpr hlisted) hfirst
      · exact hes e he

theorem get_map_places (key : String) (f : Place → Json) (es : List (String × Place)) :
    Entries.get key (es.map fun e => (e.1, f e.2)) =
      (es.find? fun e => e.1 = key).map fun e => f e.2 := by
  induction es with
  | nil => rfl
  | cons e es ih =>
    rw [List.map_cons, Entries.get, List.find?_cons]
    by_cases hkey : e.1 = key
    · simp [hkey]
    · simp [hkey, ih]

/-- Where the properties of now are those of the output, the properties of before were too: the last
    property of each name counts. -/
theorem properties_before {fields : List (StructField ι)} {places : List Place}
    (hplaces : List.Forall₂ Place.Allowed (fields.flatMap StructField.asks) places) {start : Entries}
    (hstart : start.Sorted)
    (hnow : (writtenProperties fields (places.map Place.now)).foldl
        (fun m e => Entries.insert e.1 e.2 m) start =
      (writtenProperties fields (places.map Place.output)).foldl
        (fun m e => Entries.insert e.1 e.2 m) start) :
    (writtenProperties fields (places.map Place.before)).foldl
        (fun m e => Entries.insert e.1 e.2 m) start =
      (writtenProperties fields (places.map Place.now)).foldl
        (fun m e => Entries.insert e.1 e.2 m) start := by
  obtain ⟨es, hes, hbefore, hnow', houtput⟩ := exists_written hplaces
  rw [hnow', houtput] at hnow
  rw [hbefore, hnow']
  apply Entries.ext (hstart.foldl _) (hstart.foldl _)
  intro key
  have hkey := congrArg (Entries.get key) hnow
  simp only [Entries.get_foldl, ← List.map_reverse, get_map_places key Place.now,
    get_map_places key Place.output, get_map_places key Place.before] at hkey ⊢
  cases hfind : es.reverse.find? fun e => e.1 = key with
  | none => rfl
  | some e =>
    simp only [hfind, Option.map_some, Option.some_or, Option.some.injEq] at hkey ⊢
    have hmem : e ∈ es := List.mem_reverse.mp (List.mem_of_find?_eq_some hfind)
    rcases hes e hmem with h | h
    · exact h
    · rw [h, hkey]

theorem get_finish_properties (parts : ObjectParts) (description : Option String) (strict : Bool) :
    Entries.get "properties" (entriesOf (parts.finish description strict)) =
      some (.obj parts.properties) := by
  unfold ObjectParts.finish entriesOf
  cases description <;> cases strict <;> cases parts.required.isEmpty <;>
    cases parts.allOf.isEmpty <;> simp

/-- An object is legible. -/
theorem legible_object (fields : List (StructField ι)) (tag : Option (String × String))
    (description : Option String) (containerDefault denyUnknown : Bool) :
    Legible (objectPlan true fields tag description containerDefault denyUnknown)
      (objectPlan false fields tag description containerDefault denyUnknown) := by
  intro places hplaces hnow
  rw [asks_objectPlan] at hplaces
  have hsorted : (ObjectParts.tagged tag).properties.Sorted := by
    cases tag with
    | none => exact Entries.sorted_nil
    | some tag => exact Entries.sorted_nil.insert _ _
  -- the properties of now are those of the output
  have hproperties := congrArg (fun schema => Entries.get "properties" (entriesOf schema)) hnow
  have hanswer : ∀ request answers,
      (objectPlan request fields tag description containerDefault denyUnknown).answer answers =
        (partsFrom request containerDefault fields answers (.tagged tag)).finish description
          (denyUnknown && !fields.any fun field => !field.skipped && field.flatten) :=
    fun _ _ => rfl
  simp only [hanswer, get_finish_properties, Option.some.injEq, Json.obj.injEq,
    properties_partsFrom] at hproperties
  have hbefore := properties_before hplaces hsorted hproperties
  rw [← properties_partsFrom true containerDefault, ← properties_partsFrom true containerDefault]
    at hbefore
  obtain ⟨hrequired, hallOf, hschema⟩ :=
    @rest_partsFrom _ true containerDefault _ _ hplaces (.tagged tag) (.tagged tag) rfl rfl rfl
  have hparts : partsFrom true containerDefault fields (places.map Place.before) (.tagged tag) =
      partsFrom true containerDefault fields (places.map Place.now) (.tagged tag) := by
    generalize partsFrom true containerDefault fields (places.map Place.before) (.tagged tag) =
      before at *
    generalize partsFrom true containerDefault fields (places.map Place.now) (.tagged tag) =
      now at *
    cases before
    cases now
    simp_all
  rw [hanswer, hparts, ← hanswer, hnow]

end Objects

/-! ## Variants and enums -/

theorem length_asks_le (question : ι → Ask ι) (type : RustType ι) :
    (type.plan question).asks.length ≤ 1 := by
  rw [RustType.asks_plan, RustType.asks]
  cases type.named? <;> simp

/-- An alternative shows the payload. -/
theorem alternativeOf_injective (wire : String) (tagging : Tagging) :
    Function.Injective fun payload => alternativeOf wire tagging (some payload) := by
  intro payload payload' h
  cases tagging with
  | internal _ | untagged => exact h
  | external =>
    have hproperties := congrArg (fun schema => (Entries.get "properties" (entriesOf schema)).map
      fun properties => Entries.get wire (entriesOf properties)) h
    simpa [alternativeOf, Json.object, Entries.of, entriesOf] using hproperties
  | adjacent tag content =>
    have hproperties := congrArg (fun schema => (Entries.get "properties" (entriesOf schema)).map
      fun properties => Entries.get content (entriesOf properties)) h
    simpa [alternativeOf, Json.object, Entries.of, entriesOf] using hproperties

/-- A variant carries nothing, or a payload that is legible. -/
theorem payload_cases (variant : Variant ι) :
    (∀ request, variant.payloadPlan request = .const none) ∨
      ∃ p : Bool → Plan (Ask ι) Json Json,
        (∀ request, variant.payloadPlan request = (p request).map some) ∧
          (p false).asks = (p true).asks ∧ Legible (p true) (p false) := by
  unfold Variant.payloadPlan
  cases variant.payload with
  | unit => exact .inl fun _ => rfl
  | newtype type =>
    exact .inr ⟨fun _ => type.plan .mention, fun _ => rfl, rfl, legible_single (length_asks_le _ type)⟩
  | tuple types =>
    have hinjective : Function.Injective fun items : List Json =>
        Json.object [("type", .str "array"), ("prefixItems", .arr items),
          ("minItems", .num (.int types.length)), ("maxItems", .num (.int types.length))] := by
      intro items items' h
      have hitems := congrArg (fun schema => Entries.get "prefixItems" (entriesOf schema)) h
      simpa [Json.object, Entries.of, entriesOf] using hitems
    refine .inr ⟨fun _ => (Plan.list (types.map (RustType.plan .mention))).map fun items =>
      Json.object [("type", .str "array"), ("prefixItems", .arr items),
        ("minItems", .num (.int types.length)), ("maxItems", .num (.int types.length))], fun _ => rfl, rfl, ?_⟩
    refine legible_map hinjective (legible_list (List.forall₂_same.mpr ?_))
    intro p hp
    obtain ⟨type, _, rfl⟩ := List.mem_map.mp hp
    exact ⟨legible_single (length_asks_le _ type), rfl⟩
  | named fields =>
    refine .inr ⟨fun request => objectPlan request fields none none variant.default false,
      fun _ => rfl, ?_, legible_object _ _ _ _ _⟩
    rw [asks_objectPlan, asks_objectPlan]

theorem legible_variant (tagging : Tagging) (variant : Variant ι) :
    Legible (variant.plan tagging true) (variant.plan tagging false) := by
  unfold Variant.plan
  cases variant.tagging tagging with
  | internal tag =>
    unfold Variant.internalPlan
    cases variant.payload with
    | unit | tuple _ => exact legible_const _ _
    | newtype type => exact legible_single (length_asks_le _ _)
    | named fields => exact legible_object _ _ _ _ _
  | external | adjacent _ _ | untagged =>
    simp only
    rcases payload_cases variant with hnone | ⟨p, hp, -, hlegible⟩
    · rw [hnone, hnone]
      exact legible_const _ _
    · rw [hp, hp]
      exact legible_map (alternativeOf_injective _ _) hlegible

/-- **A body is legible.** -/
theorem legible_plan (input : DeriveInput ι) : Legible (input.plan true) (input.plan false) := by
  cases input with
  | struct _ input => exact legible_object _ _ _ _ _
  | transparent type => exact legible_single (length_asks_le _ type)
  | enum _ input =>
    show Legible (input.plan true) (input.plan false)
    unfold EnumInput.plan
    split
    · exact legible_const _ _
    · have hinjective : Function.Injective fun alternatives : List Json =>
          Json.object (input.descriptionEntry ++ [(input.combinator, .arr alternatives)]) := by
        intro alternatives alternatives' h
        have hvalues := congrArg (fun schema => Entries.get input.combinator (entriesOf schema)) h
        simpa [Json.object, Entries.of, entriesOf, List.foldl_append] using hvalues
      refine legible_map hinjective (legible_list ?_)
      rw [List.forall₂_map_left_iff, List.forall₂_map_right_iff, List.forall₂_same]
      intro variant _
      refine ⟨legible_variant _ variant, ?_⟩
      rw [Variant.asks_plan, Variant.asks_plan]

/-! ## Differing is kept -/

variable {inputs : ι → DeriveInput ι} [DecidableEq ι]

/-- The answer for a type that is not known to differ is that of the output. -/
theorem Answers.eq_or_eq {D D' E : Finset ι} (hsub : D ⊆ D') {k : ι} {before now output : Json}
    (hbefore : Answers inputs D true k before) (hnow : Answers inputs D' true k now)
    (houtput : Answers inputs E false k output) : before = now ∨ before = output := by
  induction hbefore generalizing now output with
  | @component i name hname =>
    rw [hnow.of_component hname, houtput.of_component hname]
    by_cases hmem : i ∈ D
    · simp [formName, hmem, hsub hmem]
    · simp [formName, hmem]
  | forward htransparent hk _ ih =>
    obtain ⟨now', hnow', rfl⟩ := hnow.of_some htransparent hk
    obtain ⟨output', houtput', rfl⟩ := houtput.of_some htransparent hk
    rcases ih hnow' houtput' with h | h
    · exact .inl (by rw [h])
    · exact .inr (by rw [h])
  | scalar htransparent hk => exact .inl (hnow.of_none htransparent hk).symm

/-- The answers at the places of a body. -/
theorem exists_places {D D' E : Finset ι} (hsub : D ⊆ D') {asks : List (Ask ι)}
    {befores nows outputs : List Json}
    (hbefores : List.Forall₂ (AskAnswers inputs D true) asks befores)
    (hnows : List.Forall₂ (AskAnswers inputs D' true) asks nows)
    (houtputs : List.Forall₂ (AskAnswers inputs E false) asks outputs) :
    ∃ places : List Place, List.Forall₂ Place.Allowed asks places ∧
      places.map Place.before = befores ∧ places.map Place.now = nows ∧
        places.map Place.output = outputs := by
  induction hbefores generalizing nows outputs with
  | nil =>
    cases hnows
    cases houtputs
    exact ⟨[], .nil, rfl, rfl, rfl⟩
  | @cons q before asks befores hbefore _ ih =>
    cases hnows with
    | @cons _ now _ nows hnow hnows =>
      cases houtputs with
      | @cons _ output _ outputs houtput houtputs =>
        obtain ⟨places, hplaces, rfl, rfl, rfl⟩ := ih hnows houtputs
        refine ⟨⟨before, now, output⟩ :: places, .cons ?_ hplaces, rfl, rfl, rfl⟩
        cases q with
        | mention k => exact Answers.eq_or_eq hsub hbefore hnow houtput
        | flattened k => exact Inlined.unique hbefore hnow

/-- **A type that differs still does** when more types are known to differ. -/
theorem Body.changed_mono {D D' : Finset ι} (hsub : D ⊆ D') {i : ι} {before now output : Json}
    (hbefore : Body inputs D true i before) (hnow : Body inputs D' true i now)
    (houtput : Body inputs D false i output) (hchanged : before ≠ output) : now ≠ output := by
  obtain ⟨befores, hbefores, rfl⟩ := hbefore
  obtain ⟨nows, hnows, rfl⟩ := hnow
  obtain ⟨outputs, houtputs, rfl⟩ := houtput
  intro hequal
  apply hchanged
  obtain ⟨places, hplaces, rfl, rfl, rfl⟩ := exists_places hsub hbefores hnows houtputs
  rw [← DeriveInput.asks_plan true] at hplaces
  exact legible_plan (inputs i) places hplaces hequal

end OasRs.Schema
