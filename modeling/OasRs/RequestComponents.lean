import OasRs.OutputComponents
import OasRs.References

/-!
# The Components of a Document: Request Forms

What `define_input` leaves in the registry of a document, for any derived types. It builds the
request body of a type with the answers of the moment, compares it with the output, and takes back
what was built meanwhile if others relied on there being no difference. In the end exactly the types
that differ have a request form, and each is built as the others turned out to be.

## Main results

- `Differs`: a type that has to have a request form of its own
- `Requests`, `Step`: what holds between calls, and what a call changes
- `Requests.discard`: taking back restores what was there, except for the outputs
- `requests_call`
-/

namespace OasRs.Schema

open Lib SchemaRegistry

variable {ι : Type} [DecidableEq ι] (inputs : ι → DeriveInput ι)

/-! ## Which types differ -/

/-- The request body of a type is another one than its output, when the types of `D` have request
    forms. -/
def Changed (D : Finset ι) (i : ι) : Prop :=
  ∃ body output, Body inputs D true i body ∧ Body inputs ∅ false i output ∧ body ≠ output

/-- A type whose request form differs from its output: its body does, when types that differ have
    request forms. -/
inductive Differs : ι → Prop where
  | intro {i : ι} (D : Finset ι) (hD : ∀ c ∈ D, Differs c) (h : Changed inputs D i) : Differs i

variable {inputs} {D D' : Finset ι} {i : ι}

/-- Which types differ changes the answers, not whether there are any. -/
theorem Answers.exists_of {request : Bool} {schema : Json} (h : Answers inputs D request i schema)
    (D' : Finset ι) : ∃ schema', Answers inputs D' request i schema' := by
  induction h with
  | component hname => exact ⟨_, .component hname⟩
  | forward htransparent hk _ ih =>
    obtain ⟨schema', h'⟩ := ih
    exact ⟨_, .forward htransparent hk h'⟩
  | scalar htransparent hk => exact ⟨_, .scalar htransparent hk⟩

theorem Body.exists_of {request : Bool} {body : Json} (h : Body inputs D request i body)
    (D' : Finset ι) : ∃ body', Body inputs D' request i body' := by
  obtain ⟨answers, hanswers, -⟩ := h
  have hall : ∃ answers', List.Forall₂ (AskAnswers inputs D' request) (inputs i).asks answers' := by
    generalize (inputs i).asks = asks at hanswers
    induction hanswers with
    | nil => exact ⟨[], .nil⟩
    | @cons q schema _ _ hanswer _ ih =>
      obtain ⟨answers', hrest⟩ := ih
      cases q with
      | mention k =>
        obtain ⟨schema', h'⟩ := Answers.exists_of hanswer D'
        exact ⟨schema' :: answers', .cons h' hrest⟩
      | flattened k => exact ⟨schema :: answers', .cons hanswer hrest⟩
  obtain ⟨answers', hanswers'⟩ := hall
  exact ⟨_, answers', hanswers', rfl⟩

/-- More request forms make no type equal to its output. -/
theorem Changed.mono (hsub : D ⊆ D') (h : Changed inputs D i) : Changed inputs D' i := by
  obtain ⟨body, output, hbody, houtput, hne⟩ := h
  obtain ⟨body', hbody'⟩ := hbody.exists_of D'
  exact ⟨body', output, hbody', houtput, hbody.changed_mono hsub hbody' (houtput.output D) hne⟩

theorem Changed.ne {body output : Json} (h : Changed inputs D i) (hbody : Body inputs D true i body)
    (houtput : Body inputs ∅ false i output) : body ≠ output := by
  obtain ⟨body', output', hbody', houtput', hne⟩ := h
  rw [hbody.unique hbody', houtput.unique houtput']
  exact hne

namespace Components

/-! ## Between calls -/

/-- The request form of a type is done, or it is being built and those that refer to it are known. -/
def Settled (r : SchemaRegistry ι) (c : ι) : Prop :=
  ∃ state, r.inputs.lookup c = some state ∧
    (state = .building → c ∈ r.inputDiffers ∨ c ∈ r.assumedSame)

/-- The request form of a type, as it was done. -/
structure Form (inputs : ι → DeriveInput ι) (r : SchemaRegistry ι) (i : ι) (answer : Json)
    (name : String) (built : Json) : Prop where
  component : (inputs i).component? = some name
  answer : answer = reference (formName r.inputDiffers true i name)
  owner : r.owners.lookup name = some i
  body : Body inputs r.inputDiffers true i built
  same : i ∉ r.inputDiffers → Body inputs ∅ false i built
  differs : i ∈ r.inputDiffers → r.owners.lookup (inputName name) = some i ∧
    r.definitions.lookup (inputName name) = some built
  settled : ∀ c, Mentions inputs i c → Settled r c

/-- The registry of a document between calls for request forms. -/
structure Requests (inputs : ι → DeriveInput ι) (r : SchemaRegistry ι) : Prop where
  outputs : Outputs inputs r ∅
  building : ∀ i, r.inputs.lookup i = some .building → Defined inputs r i
  done : ∀ i answer, r.inputs.lookup i = some (.done answer) →
    ∃ name built, Form inputs r i answer name built
  keys : ∀ n i, r.owners.lookup n = some i →
    (inputs i).component? = some n ∨ (i, some n) ∈ r.completed
  finished : ∀ e ∈ r.completed, ∃ answer, r.inputs.lookup e.1 = some (.done answer)
  registered : ∀ i n, (i, some n) ∈ r.completed → r.owners.lookup n = some i ∧
    i ∈ r.inputDiffers ∧ ∃ name, (inputs i).component? = some name ∧ n = inputName name
  changed : ∀ i ∈ r.inputDiffers, Changed inputs r.inputDiffers i ∧ Differs inputs i

/-- What calls change, while `own` is being built. -/
structure Step (own : Option ι) (r r' : SchemaRegistry ι) : Prop where
  completed : r.completed <+: r'.completed
  fresh : ∀ e ∈ r'.completed.drop r.completed.length, r.inputs.lookup e.1 = none
  old : ∀ i state, r.inputs.lookup i = some state → r'.inputs.lookup i = some state
  new : ∀ i state, r'.inputs.lookup i = some state → r.inputs.lookup i = some state ∨
    own = some i ∨ ∃ n, (i, n) ∈ r'.completed.drop r.completed.length
  tables : ∀ n i, r.owners.lookup n = some i →
    r'.owners.lookup n = some i ∧ r'.definitions.lookup n = r.definitions.lookup n
  differs : r.inputDiffers ⊆ r'.inputDiffers
  decided : ∀ i state, r.inputs.lookup i = some state → i ∈ r'.inputDiffers → i ∈ r.inputDiffers
  assumed : ∀ i, r.inputs.lookup i = some .building → i ∈ r.assumedSame → i ∈ r'.assumedSame

theorem Step.refl (r : SchemaRegistry ι) : Step none r r where
  completed := List.prefix_rfl
  fresh e he := by
    rw [List.drop_length] at he
    cases he
  old _ _ h := h
  new _ _ h := .inl h
  tables _ _ h := ⟨h, rfl⟩
  differs := Finset.Subset.refl _
  decided _ _ _ h := h
  assumed _ _ h := h

/-- The part of a list behind a prefix. -/
theorem mem_drop_behind {α : Type} {xs ys zs : List α} (hxy : xs <+: ys) (hyz : ys <+: zs) {z : α} :
    z ∈ zs.drop xs.length ↔ z ∈ ys.drop xs.length ∨ z ∈ zs.drop ys.length := by
  obtain ⟨ys', rfl⟩ := hxy
  obtain ⟨zs', rfl⟩ := hyz
  simp only [List.append_assoc, List.drop_left, List.mem_append]
  rw [← List.append_assoc, List.drop_left]

theorem Step.trans {own : Option ι} {r r' r'' : SchemaRegistry ι} (h : Step own r r')
    (h' : Step none r' r'') : Step own r r'' where
  completed := h.completed.trans h'.completed
  fresh e he := by
    rcases (mem_drop_behind h.completed h'.completed).mp he with he | he
    · exact h.fresh e he
    · cases hlookup : r.inputs.lookup e.1 with
      | none => rfl
      | some state =>
        have hnone := h'.fresh e he
        rw [h.old _ _ hlookup] at hnone
        cases hnone
  old i state hi := h'.old i state (h.old i state hi)
  new i state hi := by
    rcases h'.new i state hi with hi | hown | ⟨n, hn⟩
    · rcases h.new i state hi with hi | hown | ⟨n, hn⟩
      · exact .inl hi
      · exact .inr (.inl hown)
      · exact .inr (.inr ⟨n, (mem_drop_behind h.completed h'.completed).mpr (.inl hn)⟩)
    · cases hown
    · exact .inr (.inr ⟨n, (mem_drop_behind h.completed h'.completed).mpr (.inr hn)⟩)
  tables n i hn := by
    obtain ⟨howner, hdefinition⟩ := h.tables n i hn
    obtain ⟨howner', hdefinition'⟩ := h'.tables n i howner
    exact ⟨howner', hdefinition'.trans hdefinition⟩
  differs := h.differs.trans h'.differs
  decided i state hi hmem := h.decided i state hi (h'.decided i state (h.old i state hi) hmem)
  assumed i hi hmem := h'.assumed i (h.old _ _ hi) (h.assumed i hi hmem)

variable {own : Option ι} {r r' : SchemaRegistry ι}

theorem Step.defined (h : Step own r r') (hi : Defined inputs r i) : Defined inputs r' i := by
  obtain ⟨name, hname, howner⟩ := hi
  exact ⟨name, hname, (h.tables name i howner).1⟩

theorem Step.settled (h : Step own r r') (hi : Settled r i) : Settled r' i := by
  obtain ⟨state, hlookup, hknown⟩ := hi
  refine ⟨state, h.old i state hlookup, ?_⟩
  rintro rfl
  exact (hknown rfl).imp (fun hmem => h.differs hmem) (h.assumed i hlookup)

/-- Whether a type differs does not change once others refer to it. -/
theorem Step.differs_iff (h : Step own r r') (hi : Settled r i) :
    i ∈ r.inputDiffers ↔ i ∈ r'.inputDiffers := by
  obtain ⟨state, hlookup, -⟩ := hi
  exact ⟨fun hmem => h.differs hmem, h.decided i state hlookup⟩

/-! ## Keeping what is done -/

theorem settled_of_done {answer : Json} (h : r.inputs.lookup i = some (.done answer)) : Settled r i :=
  ⟨.done answer, h, nofun⟩

theorem Settled.ne {j : ι} (h : Settled r i) (hnone : r.inputs.lookup j = none) : i ≠ j := by
  rintro rfl
  obtain ⟨state, hlookup, -⟩ := h
  rw [hnone] at hlookup
  cases hlookup

/-- A request form that is done stays as it is while no type that was settled changes. -/
theorem Form.mono {answer built : Json} {name : String} (h : Form inputs r i answer name built)
    (hi : Settled r i)
    (htables : ∀ n i, r.owners.lookup n = some i →
      r'.owners.lookup n = some i ∧ r'.definitions.lookup n = r.definitions.lookup n)
    (hsettled : ∀ c, Settled r c → Settled r' c)
    (hdiffers : ∀ c, Settled r c → (c ∈ r.inputDiffers ↔ c ∈ r'.inputDiffers)) :
    Form inputs r' i answer name built where
  component := h.component
  answer := by
    rw [h.answer]
    simp only [formName, hdiffers i hi]
  owner := (htables name i h.owner).1
  body := h.body.congr fun _ c hc => hdiffers c (h.settled c hc)
  same hmem := h.same ((hdiffers i hi).not.mpr hmem)
  differs hmem := by
    obtain ⟨howner, hdefinition⟩ := h.differs ((hdiffers i hi).mpr hmem)
    obtain ⟨howner', hdefinition'⟩ := htables _ i howner
    exact ⟨howner', hdefinition'.trans hdefinition⟩
  settled c hc := hsettled c (h.settled c hc)

/-- The same request forms, beside other outputs. -/
theorem Requests.transport (h : Requests inputs r) (houtputs : Outputs inputs r' ∅)
    (htables : ∀ n i, r.owners.lookup n = some i →
      r'.owners.lookup n = some i ∧ r'.definitions.lookup n = r.definitions.lookup n)
    (hkeys : ∀ n i, r'.owners.lookup n = some i →
      r.owners.lookup n = some i ∨ (inputs i).component? = some n)
    (hcompleted : r'.completed = r.completed)
    (hold : ∀ i state, r.inputs.lookup i = some state → r'.inputs.lookup i = some state)
    (hnew : ∀ i state, r'.inputs.lookup i = some state →
      r.inputs.lookup i = some state ∨ state = .building ∧ Defined inputs r' i)
    (hdiffers : r.inputDiffers ⊆ r'.inputDiffers)
    (hdecided : ∀ c, Settled r c → c ∈ r'.inputDiffers → c ∈ r.inputDiffers)
    (hassumed : ∀ i, r.inputs.lookup i = some .building → i ∈ r.assumedSame → i ∈ r'.assumedSame)
    (hchanged : ∀ i ∈ r'.inputDiffers, Changed inputs r'.inputDiffers i ∧ Differs inputs i) :
    Requests inputs r' where
  outputs := houtputs
  building i hi := by
    rcases hnew i _ hi with hi | ⟨-, hdefined⟩
    · obtain ⟨name, hname, howner⟩ := h.building i hi
      exact ⟨name, hname, (htables name i howner).1⟩
    · exact hdefined
  done i answer hi := by
    have hi := (hnew i _ hi).resolve_right fun hbuilding => by cases hbuilding.1
    obtain ⟨name, built, hform⟩ := h.done i answer hi
    refine ⟨name, built, hform.mono (settled_of_done hi) htables ?_ ?_⟩
    · rintro c ⟨state, hc, hknown⟩
      refine ⟨state, hold c state hc, ?_⟩
      rintro rfl
      exact (hknown rfl).imp (fun hmem => hdiffers hmem) (hassumed c hc)
    · exact fun c hc => ⟨fun hmem => hdiffers hmem, hdecided c hc⟩
  keys n i hn := by
    rw [hcompleted]
    rcases hkeys n i hn with hn | hn
    · exact h.keys n i hn
    · exact .inl hn
  finished e he := by
    rw [hcompleted] at he
    obtain ⟨answer, hlookup⟩ := h.finished e he
    exact ⟨answer, hold _ _ hlookup⟩
  registered i n hn := by
    rw [hcompleted] at hn
    obtain ⟨howner, hmem, hname⟩ := h.registered i n hn
    exact ⟨(htables n i howner).1, hdiffers hmem, hname⟩
  changed := hchanged

/-- Outputs leave the request forms as they are. -/
theorem Requests.output (h : Requests inputs r) (houtputs : Outputs inputs r' ∅)
    (hstep : OutputStep inputs r r') : Requests inputs r' ∧ Step none r r' := by
  have hinputs : r'.inputs = r.inputs := by rw [hstep.rest]
  have hcompleted : r'.completed = r.completed := by rw [hstep.rest]
  have hdiffers : r'.inputDiffers = r.inputDiffers := by rw [hstep.rest]
  have hassumed : r'.assumedSame = r.assumedSame := by rw [hstep.rest]
  refine ⟨h.transport houtputs hstep.old hstep.new hcompleted ?_ ?_ ?_ ?_ ?_ ?_, ?_⟩
  · exact fun i state hi => hinputs ▸ hi
  · exact fun i state hi => .inl (hinputs ▸ hi)
  · rw [hdiffers]
  · exact fun c _ hc => hdiffers ▸ hc
  · exact fun i _ hi => hassumed ▸ hi
  · rw [hdiffers]
    exact h.changed
  · exact
      { completed := by rw [hcompleted]
        fresh := fun e he => by
          rw [hcompleted, List.drop_length] at he
          cases he
        old := fun i state hi => hinputs ▸ hi
        new := fun i state hi => .inl (hinputs ▸ hi)
        tables := hstep.old
        differs := by rw [hdiffers]
        decided := fun i _ _ hi => hdiffers ▸ hi
        assumed := fun i _ hi => hassumed ▸ hi }

/-- A type whose request form is begun: its output has been built. -/
theorem Requests.begin (h : Requests inputs r) (hnone : r.inputs.lookup i = none)
    (houtputs : Outputs inputs r' ∅)
    (hstep : OutputStep inputs { r with inputs := r.inputs.insert i .building } r')
    (hi : Defined inputs r' i) :
    Requests inputs r' ∧ Step (some i) r r' ∧ r'.inputs.lookup i = some .building := by
  have hinputs : ∀ j, r'.inputs.lookup j = if j = i then some .building else r.inputs.lookup j := by
    intro j
    rw [hstep.rest]
    exact Table.lookup_insert ..
  have hcompleted : r'.completed = r.completed := by rw [hstep.rest]
  have hdiffers : r'.inputDiffers = r.inputDiffers := by rw [hstep.rest]
  have hassumed : r'.assumedSame = r.assumedSame := by rw [hstep.rest]
  -- no other type is touched, and this one was not known
  have hold : ∀ j state, r.inputs.lookup j = some state → r'.inputs.lookup j = some state := by
    intro j state hj
    rw [hinputs, if_neg]
    · exact hj
    · rintro rfl
      rw [hnone] at hj
      cases hj
  have hnew : ∀ j state, r'.inputs.lookup j = some state →
      r.inputs.lookup j = some state ∨ j = i ∧ state = .building := by
    intro j state hj
    rw [hinputs] at hj
    split at hj
    · cases hj
      exact .inr ⟨‹_›, rfl⟩
    · exact .inl hj
  -- the outputs grew, which the registry was sound for, and the rest is as it was
  refine ⟨h.transport houtputs hstep.old hstep.new hcompleted hold ?_ ?_ ?_ ?_ ?_, ?_, ?_⟩
  · intro j state hj
    rcases hnew j state hj with hj | ⟨rfl, hstate⟩
    · exact .inl hj
    · exact .inr ⟨hstate, hi⟩
  · rw [hdiffers]
  · exact fun c _ hc => hdiffers ▸ hc
  · exact fun j _ hj => hassumed ▸ hj
  · rw [hdiffers]
    exact h.changed
  · exact
      -- nothing is completed yet; only the type itself is being built
      { completed := by rw [hcompleted]
        fresh := fun e he => by
          rw [hcompleted, List.drop_length] at he
          cases he
        old := hold
        new := fun j state hj => (hnew j state hj).imp_right fun hj => .inl (by rw [hj.1])
        tables := hstep.old
        differs := by rw [hdiffers]
        decided := fun j _ _ hj => hdiffers ▸ hj
        assumed := fun j _ hj => hassumed ▸ hj }
  · rw [hinputs, if_pos rfl]

/-! ## Finding out that a type differs -/

theorem inputName_ne (name : String) : inputName name ≠ name := by
  intro h
  have hlength := congrArg String.length h
  simp [inputName, String.length_append] at hlength

/-- The tables of outputs do not depend on the others. -/
theorem Outputs.congr {pending : Finset ι} (h : Outputs inputs r pending)
    (hinline : r'.inline = r.inline) (howners : r'.owners = r.owners)
    (hdefinitions : r'.definitions = r.definitions) : Outputs inputs r' pending := by
  have hdefined : ∀ i, Defined inputs r' i ↔ Defined inputs r i := by
    intro i
    simp only [Defined, howners]
  refine ⟨hinline.trans h.document, ?_, ?_, ?_, ?_⟩
  · rw [howners]
    exact h.owner
  · rw [howners, hdefinitions]
    exact h.keys
  · intro i hi hpending
    rw [hdefinitions]
    exact h.output i ((hdefined i).mp hi) hpending
  · intro i hi hpending c hc
    exact (hdefined c).mpr (h.closed i ((hdefined i).mp hi) hpending c hc)

/-- The output of a type that is defined. -/
theorem Requests.exists_output (h : Requests inputs r) {name : String}
    (hname : (inputs i).component? = some name) (hi : Defined inputs r i) :
    ∃ output, r.definitions.lookup name = some output ∧ Body inputs ∅ false i output := by
  obtain ⟨name', output, hname', hlookup, hbody⟩ := h.outputs.output i hi (Finset.notMem_empty i)
  rw [hname] at hname'
  cases hname'
  exact ⟨output, hlookup, hbody⟩

theorem Requests.changed_of_ne (h : Requests inputs r) {name : String} {built : Json}
    (hname : (inputs i).component? = some name) (hi : Defined inputs r i)
    (hbody : Body inputs r.inputDiffers true i built)
    (hne : r.definitions.lookup name ≠ some built) : Changed inputs r.inputDiffers i := by
  obtain ⟨output, hlookup, houtput⟩ := h.exists_output hname hi
  refine ⟨built, output, hbody, houtput, ?_⟩
  rintro rfl
  exact hne hlookup

/-- A type is referred to while it is being built. -/
theorem Requests.assume (h : Requests inputs r) (i : ι) :
    Requests inputs { r with assumedSame := insert i r.assumedSame } ∧
      Step none r { r with assumedSame := insert i r.assumedSame } := by
  refine ⟨h.transport (h.outputs.congr rfl rfl rfl) (fun _ _ hn => ⟨hn, rfl⟩) (fun _ _ => .inl) rfl
    (fun _ _ hj => hj) (fun _ _ => .inl) (Finset.Subset.refl _) (fun _ _ hc => hc) ?_ h.changed, ?_⟩
  · exact fun j _ hj => Finset.mem_insert_of_mem hj
  · exact { Step.refl r with assumed := fun j _ hj => Finset.mem_insert_of_mem hj }

/-- A type that is being built differs, and nobody relied on the contrary. -/
theorem Requests.differ (h : Requests inputs r) (hbuilding : r.inputs.lookup i = some .building)
    (hassumed : i ∉ r.assumedSame) (hchanged : Changed inputs r.inputDiffers i) :
    Requests inputs { r with inputDiffers := insert i r.inputDiffers } ∧
      ∀ c, Settled r c → (c ∈ r.inputDiffers ↔ c ∈ insert i r.inputDiffers) := by
  have hsub : r.inputDiffers ⊆ insert i r.inputDiffers := Finset.subset_insert _ _
  have hdecided : ∀ c, Settled r c → c ∈ insert i r.inputDiffers → c ∈ r.inputDiffers := by
    rintro c ⟨state, hlookup, hknown⟩ hmem
    rcases Finset.mem_insert.mp hmem with rfl | hmem
    · -- whoever referred to it knew that it differs
      rw [hbuilding] at hlookup
      cases hlookup
      exact (hknown rfl).resolve_right hassumed
    · exact hmem
  refine ⟨h.transport (h.outputs.congr rfl rfl rfl) (fun _ _ hn => ⟨hn, rfl⟩) (fun _ _ => .inl) rfl
    (fun _ _ hj => hj) (fun _ _ => .inl) hsub hdecided (fun _ _ hj => hj) ?_,
    fun c hc => ⟨fun hmem => hsub hmem, hdecided c hc⟩⟩
  intro j hj
  rcases Finset.mem_insert.mp hj with rfl | hj
  · exact ⟨hchanged.mono hsub, .intro r.inputDiffers (fun c hc => (h.changed c hc).2) hchanged⟩
  · exact ⟨(h.changed j hj).1.mono hsub, (h.changed j hj).2⟩

theorem Step.differ (h : Step (some i) r r') (hnone : r.inputs.lookup i = none) :
    Step (some i) r { r' with inputDiffers := insert i r'.inputDiffers } :=
  { h with
    differs := h.differs.trans (Finset.subset_insert _ _)
    decided := by
      intro j state hj hmem
      rcases Finset.mem_insert.mp hmem with rfl | hmem
      · rw [hnone] at hj
        cases hj
      · exact h.decided j state hj hmem }

section Discard

variable {r₁ r₂ : SchemaRegistry ι}

/-- The component that an entry of the completed types takes along. -/
theorem Requests.erased (h₂ : Requests inputs r₂) {n : String} {start : ℕ}
    (hmem : some n ∈ (r₂.completed.drop start).map Prod.snd) {j : ι}
    (howner : r₂.owners.lookup n = some j) :
    (j, some n) ∈ r₂.completed.drop start ∧
      ∃ name, (inputs j).component? = some name ∧ n = inputName name := by
  obtain ⟨⟨k, m⟩, he, rfl⟩ := List.mem_map.mp hmem
  obtain ⟨howner', -, hname⟩ := h₂.registered k n (List.mem_of_mem_drop he)
  rw [howner] at howner'
  cases howner'
  exact ⟨he, hname⟩

/-- Outputs are not taken back. -/
theorem Requests.output_kept (h₂ : Requests inputs r₂) {name : String} {j : ι}
    (hname : (inputs j).component? = some name) (howner : r₂.owners.lookup name = some j)
    (start : ℕ) : some name ∉ (r₂.completed.drop start).map Prod.snd := by
  intro hmem
  obtain ⟨-, name', hname', heq⟩ := h₂.erased hmem howner
  rw [hname] at hname'
  cases hname'
  exact inputName_ne name heq.symm

/-- Nor is what was there before. -/
theorem Requests.kept (h : Requests inputs r₁) (h₂ : Requests inputs r₂) (hstep : Step own r₁ r₂)
    {n : String} {j : ι} (howner : r₁.owners.lookup n = some j) :
    some n ∉ (r₂.completed.drop r₁.completed.length).map Prod.snd := by
  have howner₂ := (hstep.tables n j howner).1
  intro hmem
  rcases h.keys n j howner with hname | hold
  · exact h₂.output_kept hname howner₂ _ hmem
  · -- its type was done before
    obtain ⟨answer, hdone⟩ := h.finished _ hold
    have hnone := hstep.fresh _ (h₂.erased hmem howner₂).1
    rw [hdone] at hnone
    cases hnone

/-- What was completed since a type was begun is taken back: only the outputs that were built
    meanwhile stay. -/
theorem Requests.discard (h : Requests inputs r₁) (hnone : r₁.inputs.lookup i = none)
    (hstep : Step (some i) r₁ r₂) (h₂ : Requests inputs r₂)
    (hbuilding : r₂.inputs.lookup i = some .building) (hchanged : Changed inputs r₂.inputDiffers i)
    (hr : r = SchemaRegistry.discard { r₂ with
      inputDiffers := insert i r₂.inputDiffers
      assumedSame := r₂.assumedSame.erase i } r₁.completed.length) :
    Requests inputs r ∧ Step (some i) r₁ r ∧ r.inputs.lookup i = some .building ∧
      r.inputDiffers = insert i r₂.inputDiffers := by
  have hrest := discard_rest { r₂ with
    inputDiffers := insert i r₂.inputDiffers
    assumedSame := r₂.assumedSame.erase i } r₁.completed.length
  rw [← hr] at hrest
  have hinline : r.inline = r₂.inline := by rw [hrest]
  have hdiffers : r.inputDiffers = insert i r₂.inputDiffers := by rw [hrest]
  have hassumed : r.assumedSame = r₂.assumedSame.erase i := by rw [hrest]
  have hcompleted : r.completed = r₁.completed := by
    rw [hrest]
    exact (List.prefix_iff_eq_take.mp hstep.completed).symm
  -- what was completed since is forgotten, with the components it had
  have hinputs : ∀ j, r.inputs.lookup j =
      if j ∈ (r₂.completed.drop r₁.completed.length).map Prod.fst then none
      else r₂.inputs.lookup j := by
    intro j
    rw [hr]
    exact inputs_discard _ _ j
  have howners : ∀ n, r.owners.lookup n =
      if some n ∈ (r₂.completed.drop r₁.completed.length).map Prod.snd then none
      else r₂.owners.lookup n := by
    intro n
    rw [hr]
    exact owners_discard _ _ n
  have hdefinitions : ∀ n, r.definitions.lookup n =
      if some n ∈ (r₂.completed.drop r₁.completed.length).map Prod.snd then none
      else r₂.definitions.lookup n := by
    intro n
    rw [hr]
    exact definitions_discard _ _ n
  -- types
  have hold : ∀ j state, r₁.inputs.lookup j = some state → r.inputs.lookup j = some state := by
    intro j state hj
    rw [hinputs, if_neg]
    · exact hstep.old j state hj
    · intro hmem
      obtain ⟨e, he, rfl⟩ := List.mem_map.mp hmem
      rw [hstep.fresh e he] at hj
      cases hj
  have hnew : ∀ j state, r.inputs.lookup j = some state →
      r₁.inputs.lookup j = some state ∨ j = i ∧ state = .building := by
    intro j state hj
    rw [hinputs] at hj
    split at hj
    · cases hj
    · rename_i hmem
      rcases hstep.new j state hj with hj | hown | ⟨n, hn⟩
      · exact .inl hj
      · cases hown
        rw [hbuilding] at hj
        exact .inr ⟨rfl, (Option.some.inj hj).symm⟩
      · exact absurd (List.mem_map_of_mem hn) hmem
  have hi : r.inputs.lookup i = some .building := by
    rw [hinputs, if_neg]
    · exact hbuilding
    · -- a type that is being built is not completed
      intro hmem
      obtain ⟨e, he, rfl⟩ := List.mem_map.mp hmem
      obtain ⟨answer, hdone⟩ := h₂.finished e (List.mem_of_mem_drop he)
      rw [hbuilding] at hdone
      cases hdone
  -- components
  have hkept : ∀ n, some n ∉ (r₂.completed.drop r₁.completed.length).map Prod.snd →
      r.owners.lookup n = r₂.owners.lookup n ∧ r.definitions.lookup n = r₂.definitions.lookup n := by
    intro n hn
    rw [howners, hdefinitions, if_neg hn, if_neg hn]
    exact ⟨rfl, rfl⟩
  have hdefined : ∀ c, Defined inputs r c ↔ Defined inputs r₂ c := by
    intro c
    constructor
    · rintro ⟨name, hname, howner⟩
      rw [howners] at howner
      split at howner
      · cases howner
      · exact ⟨name, hname, howner⟩
    · rintro ⟨name, hname, howner⟩
      refine ⟨name, hname, ?_⟩
      rw [(hkept name (h₂.output_kept hname howner _)).1]
      exact howner
  -- an output is the component of no request form, so all of them stay
  have houtputs : Outputs inputs r ∅ := by
    refine ⟨hinline.trans h₂.outputs.document, ?_, ?_, ?_, ?_⟩
    · intro n j hn
      rw [howners] at hn
      split at hn
      · cases hn
      · exact h₂.outputs.owner n j hn
    · intro n
      rw [howners, hdefinitions]
      split
      · rfl
      · exact h₂.outputs.keys n
    · intro c hc hpending
      have hc₂ := (hdefined c).mp hc
      obtain ⟨name, schema, hname, hlookup, hbody⟩ := h₂.outputs.output c hc₂ hpending
      obtain ⟨name', hname', howner⟩ := hc₂
      rw [hname] at hname'
      cases hname'
      refine ⟨name, schema, hname, ?_, hbody⟩
      rw [(hkept name (h₂.output_kept hname howner _)).2]
      exact hlookup
    · intro c hc hpending c' hc'
      exact (hdefined c').mpr (h₂.outputs.closed c ((hdefined c).mp hc) hpending c' hc')
  -- and what was there before is not among the forgotten
  have htables : ∀ n j, r₁.owners.lookup n = some j →
      r.owners.lookup n = some j ∧ r.definitions.lookup n = r₁.definitions.lookup n := by
    intro n j hn
    obtain ⟨howner, hdefinition⟩ := hstep.tables n j hn
    obtain ⟨howner', hdefinition'⟩ := hkept n (h.kept h₂ hstep hn)
    exact ⟨howner'.trans howner, hdefinition'.trans hdefinition⟩
  have hkeys : ∀ n j, r.owners.lookup n = some j →
      r₁.owners.lookup n = some j ∨ (inputs j).component? = some n := by
    intro n j hn
    rw [howners] at hn
    split at hn
    · cases hn
    · rename_i hmem
      rcases h₂.keys n j hn with hname | hentry
      · exact .inr hname
      · -- an entry from before
        left
        rw [← List.take_append_drop r₁.completed.length r₂.completed, List.mem_append,
          ← List.prefix_iff_eq_take.mp hstep.completed] at hentry
        rcases hentry with hentry | hentry
        · exact (h.registered j n hentry).1
        · exact absurd (List.mem_map_of_mem hentry) hmem
  -- the type itself was not known before, so nothing was decided on it
  have hdecided : ∀ c, r₁.inputs.lookup c ≠ none → c ∈ r.inputDiffers → c ∈ r₁.inputDiffers := by
    intro c hc hmem
    rw [hdiffers] at hmem
    obtain ⟨state, hstate⟩ := Option.ne_none_iff_exists'.mp hc
    rcases Finset.mem_insert.mp hmem with rfl | hmem
    · rw [hnone] at hstate
      cases hstate
    · exact hstep.decided c state hstate hmem
  have hsub : r₁.inputDiffers ⊆ r.inputDiffers := by
    rw [hdiffers]
    exact hstep.differs.trans (Finset.subset_insert _ _)
  have hassume : ∀ j, r₁.inputs.lookup j = some .building → j ∈ r₁.assumedSame → j ∈ r.assumedSame := by
    intro j hj hmem
    rw [hassumed, Finset.mem_erase]
    refine ⟨?_, hstep.assumed j hj hmem⟩
    rintro rfl
    rw [hnone] at hj
    cases hj
  refine ⟨h.transport houtputs htables hkeys hcompleted hold ?_ hsub ?_ hassume ?_, ?_, hi, hdiffers⟩
  · intro j state hj
    rcases hnew j state hj with hj | ⟨rfl, hstate⟩
    · exact .inl hj
    · exact .inr ⟨hstate, (hdefined j).mpr (h₂.building j hbuilding)⟩
  · rintro c ⟨state, hc, -⟩
    exact hdecided c (by simp [hc])
  -- the type differs now: one of its mentions does
  · intro j hj
    rw [hdiffers] at hj ⊢
    have hgrows := Finset.subset_insert i r₂.inputDiffers
    rcases Finset.mem_insert.mp hj with rfl | hj
    · exact ⟨hchanged.mono hgrows, .intro r₂.inputDiffers (fun c hc => (h₂.changed c hc).2) hchanged⟩
    · exact ⟨(h₂.changed j hj).1.mono hgrows, (h₂.changed j hj).2⟩
  · exact
      { completed := by rw [hcompleted]
        fresh := fun e he => by
          rw [hcompleted, List.drop_length] at he
          cases he
        old := hold
        new := fun j state hj => (hnew j state hj).imp_right fun hj => .inl (by rw [hj.1])
        tables := htables
        differs := hsub
        decided := fun c state hc => hdecided c (by simp [hc])
        assumed := hassume }

end Discard

/-! ## The end of a request form -/

/-- How a request form is done: `i` is done with this answer, and `defined` is the component that
    was registered for it, if any. -/
structure Completes (i : ι) (name : String) (answer : Json) (defined : Option String)
    (r r' : SchemaRegistry ι) : Prop where
  tables : ∀ n j, r.owners.lookup n = some j →
    r'.owners.lookup n = some j ∧ r'.definitions.lookup n = r.definitions.lookup n
  keys : ∀ n j, r'.owners.lookup n = some j → r.owners.lookup n = some j ∨ j = i ∧ defined = some n
  component : ∀ n ∈ defined, r'.owners.lookup n = some i ∧ i ∈ r'.inputDiffers ∧ n = inputName name
  inputs : ∀ j, r'.inputs.lookup j = if j = i then some (.done answer) else r.inputs.lookup j
  completed : r'.completed = r.completed ++ [(i, defined)]
  differs : r'.inputDiffers = r.inputDiffers
  assumed : r'.assumedSame = r.assumedSame

variable {name : String} {answer built : Json} {defined : Option String}

theorem Completes.settled (h : Completes i name answer defined r r') {c : ι} (hc : Settled r c) :
    Settled r' c := by
  obtain ⟨state, hlookup, hknown⟩ := hc
  by_cases hci : c = i
  · exact ⟨.done answer, by rw [h.inputs, if_pos hci], nofun⟩
  · refine ⟨state, ?_, ?_⟩
    · rw [h.inputs, if_neg hci]
      exact hlookup
    · rw [h.differs, h.assumed]
      exact hknown

theorem Requests.complete (h : Requests inputs r) (hbuilding : r.inputs.lookup i = some .building)
    (hcompletes : Completes i name answer defined r r') (houtputs : Outputs inputs r' ∅)
    (hform : Form inputs r' i answer name built) : Requests inputs r' where
  outputs := houtputs
  building j hj := by
    rw [hcompletes.inputs] at hj
    split at hj
    · cases hj
    · obtain ⟨name', hname, howner⟩ := h.building j hj
      exact ⟨name', hname, (hcompletes.tables name' j howner).1⟩
  done j answer' hj := by
    by_cases hji : j = i
    -- the form that was just finished
    · rw [hcompletes.inputs, if_pos hji] at hj
      cases hj
      rw [hji]
      exact ⟨name, built, hform⟩
    -- an older form: its tables and what it rests on stay
    · rw [hcompletes.inputs, if_neg hji] at hj
      obtain ⟨name', built', hform'⟩ := h.done j answer' hj
      refine ⟨name', built', hform'.mono (settled_of_done hj) hcompletes.tables
        (fun c => hcompletes.settled) ?_⟩
      intro c _
      rw [hcompletes.differs]
  keys n j hn := by
    rw [hcompletes.completed, List.mem_append, List.mem_singleton]
    rcases hcompletes.keys n j hn with hn | ⟨rfl, hdefined⟩
    · exact (h.keys n j hn).imp_right .inl
    · exact .inr (.inr (by rw [hdefined]))
  finished e he := by
    rw [hcompletes.completed, List.mem_append, List.mem_singleton] at he
    rcases he with he | rfl
    · obtain ⟨answer', hdone⟩ := h.finished e he
      by_cases hei : e.1 = i
      · exact ⟨answer, by rw [hcompletes.inputs, if_pos hei]⟩
      · exact ⟨answer', by rw [hcompletes.inputs, if_neg hei, hdone]⟩
    · exact ⟨answer, by rw [hcompletes.inputs, if_pos rfl]⟩
  registered j n hn := by
    rw [hcompletes.completed, List.mem_append, List.mem_singleton] at hn
    rcases hn with hn | heq
    · obtain ⟨howner, hmem, hname⟩ := h.registered j n hn
      rw [hcompletes.differs]
      exact ⟨(hcompletes.tables n j howner).1, hmem, hname⟩
    · obtain ⟨rfl, hdefined⟩ := Prod.mk.inj heq
      obtain ⟨howner, hmem, hname⟩ := hcompletes.component n hdefined.symm
      exact ⟨howner, hmem, name, hform.component, hname⟩
  changed := by
    rw [hcompletes.differs]
    exact h.changed

/-- Then it has been new, from the beginning to the end. -/
theorem Step.complete {r₀ : SchemaRegistry ι} (h : Step (some i) r₀ r)
    (hnone : r₀.inputs.lookup i = none) (hcompletes : Completes i name answer defined r r') :
    Step none r₀ r' := by
  have hprefix : r.completed <+: r'.completed := by
    rw [hcompletes.completed]
    exact List.prefix_append _ _
  have hlast : ∀ e, e ∈ r'.completed.drop r.completed.length ↔ e = (i, defined) := by
    intro e
    rw [hcompletes.completed, List.drop_left, List.mem_singleton]
  have hdrop := fun e : ι × Option String => @mem_drop_behind _ _ _ _ h.completed hprefix e
  refine
    { completed := h.completed.trans hprefix
      fresh := ?_
      old := ?_
      new := ?_
      tables := ?_
      differs := ?_
      decided := ?_
      assumed := ?_ }
  -- each entry since then is of a type that was not known, this one too
  · intro e he
    rcases (hdrop e).mp he with he | he
    · exact h.fresh e he
    · rw [(hlast e).mp he]
      exact hnone
  · intro j state hj
    rw [hcompletes.inputs, if_neg]
    · exact h.old j state hj
    · rintro rfl
      rw [hnone] at hj
      cases hj
  · intro j state hj
    -- the type has its own entry now, so it need not be named apart
    have hentry : (i, defined) ∈ r'.completed.drop r₀.completed.length :=
      (hdrop _).mpr (.inr ((hlast _).mpr rfl))
    by_cases hji : j = i
    · exact .inr (.inr ⟨defined, hji ▸ hentry⟩)
    · rw [hcompletes.inputs, if_neg hji] at hj
      rcases h.new j state hj with hj | hown | ⟨n, hn⟩
      · exact .inl hj
      · exact absurd (Option.some.inj hown).symm hji
      · exact .inr (.inr ⟨n, (hdrop _).mpr (.inl hn)⟩)
  · intro n j hn
    obtain ⟨howner, hdefinition⟩ := h.tables n j hn
    obtain ⟨howner', hdefinition'⟩ := hcompletes.tables n j howner
    exact ⟨howner', hdefinition'.trans hdefinition⟩
  · rw [hcompletes.differs]
    exact h.differs
  · rw [hcompletes.differs]
    exact h.decided
  · rw [hcompletes.assumed]
    exact h.assumed

/-- The request form of a type that does not differ is its output. -/
theorem Requests.finish_same (h : Requests inputs r) (hbuilding : r.inputs.lookup i = some .building)
    (hname : (inputs i).component? = some name) (hbody : Body inputs r.inputDiffers true i built)
    (hsettled : ∀ c, Mentions inputs i c → Settled r c)
    (hequal : r.definitions.lookup name = some built) :
    Completes i name (reference name) none r (r.finish i (reference name) none) ∧
      Requests inputs (r.finish i (reference name) none) ∧ i ∉ r.inputDiffers := by
  have hdefined := h.building i hbuilding
  obtain ⟨output, hlookup, houtput⟩ := h.exists_output hname hdefined
  rw [hequal] at hlookup
  cases hlookup
  obtain ⟨name', hname', howner⟩ := hdefined
  rw [hname] at hname'
  cases hname'
  -- a type that differs has a body of its own
  have hsame : i ∉ r.inputDiffers := fun hmem => (h.changed i hmem).1.ne hbody houtput rfl
  have hcompletes : Completes i name (reference name) none r (r.finish i (reference name) none) :=
    { tables := fun _ _ hn => ⟨hn, rfl⟩
      keys := fun _ _ => .inl
      component := nofun
      inputs := fun j => Table.lookup_insert ..
      completed := rfl
      differs := rfl
      assumed := rfl }
  have hform : Form inputs (r.finish i (reference name) none) i (reference name) name built :=
    { component := hname
      answer := by rw [formName, if_neg fun hmem => hsame hmem.2]
      owner := howner
      body := hbody
      same := fun _ => houtput
      differs := fun hmem => absurd hmem hsame
      settled := fun c hc => hcompletes.settled (hsettled c hc) }
  exact ⟨hcompletes, h.complete hbuilding hcompletes (h.outputs.congr rfl rfl rfl) hform, hsame⟩

/-- The request form of a type that differs gets a component. -/
theorem Requests.register (h : Requests inputs r) (hbuilding : r.inputs.lookup i = some .building)
    (hname : (inputs i).component? = some name) (hmem : i ∈ r.inputDiffers)
    (hbody : Body inputs r.inputDiffers true i built)
    (hsettled : ∀ c, Mentions inputs i c → Settled r c)
    (hconflicts : (r.registerInput i name built).conflicts = [])
    (hr' : r' = (r.registerInput i name built).finish i (reference (inputName name))
      (some (inputName name))) :
    Completes i name (reference (inputName name)) (some (inputName name)) r r' ∧
      Requests inputs r' := by
  have hfresh : r.owners.lookup (inputName name) = none := by
    cases howner : r.owners.lookup (inputName name) with
    | none => rfl
    | some existing =>
      by_cases hexisting : existing = i
      · -- the type would have been done already
        subst hexisting
        rcases h.keys _ _ howner with hname' | hentry
        · rw [hname] at hname'
          exact absurd (Option.some.inj hname').symm (inputName_ne name)
        · obtain ⟨answer, hdone⟩ := h.finished _ hentry
          rw [hbuilding] at hdone
          cases hdone
      · rw [registerInput, howner] at hconflicts
        simp only [if_neg hexisting] at hconflicts
        exact absurd hconflicts (conflict_ne_nil r _)
  -- so that the name is free, and the component is inserted
  have hregister : r.registerInput i name built = { r with
      owners := r.owners.insert (inputName name) i
      definitions := r.definitions.insert (inputName name) built } := by
    rw [registerInput, hfresh]
  rw [hregister] at hr'
  have howners : ∀ n, r'.owners.lookup n =
      if n = inputName name then some i else r.owners.lookup n := by
    intro n
    rw [hr']
    exact Table.lookup_insert ..
  have hdefinitions : ∀ n, r'.definitions.lookup n =
      if n = inputName name then some built else r.definitions.lookup n := by
    intro n
    rw [hr']
    exact Table.lookup_insert ..
  -- no other component changes
  have htables : ∀ n j, r.owners.lookup n = some j →
      r'.owners.lookup n = some j ∧ r'.definitions.lookup n = r.definitions.lookup n := by
    intro n j hn
    have hne : n ≠ inputName name := by
      rintro rfl
      rw [hfresh] at hn
      cases hn
    rw [howners, hdefinitions, if_neg hne, if_neg hne]
    exact ⟨hn, rfl⟩
  -- the registry differs by one component and one finished form
  have hcompletes : Completes i name (reference (inputName name)) (some (inputName name)) r r' :=
    { tables := htables
      keys := fun n j hn => by
        rw [howners] at hn
        split at hn
        · rename_i heq
          cases hn
          exact .inr ⟨rfl, by rw [heq]⟩
        · exact .inl hn
      component := by
        rintro n ⟨⟩
        rw [howners, if_pos rfl]
        exact ⟨rfl, by rw [hr']; exact hmem, rfl⟩
      inputs := fun j => by
        rw [hr']
        exact Table.lookup_insert ..
      completed := by rw [hr', finish]
      differs := by rw [hr', finish]
      assumed := by rw [hr', finish] }
  have hdefined : ∀ c, Defined inputs r' c → Defined inputs r c := by
    rintro c ⟨name', hname', howner⟩
    rw [howners] at howner
    split at howner
    · -- the component of a request form is no output
      rename_i heq
      cases howner
      rw [hname] at hname'
      cases hname'
      exact absurd heq.symm (inputName_ne name)
    · exact ⟨name', hname', howner⟩
  have houtputs : Outputs inputs r' ∅ := by
    refine ⟨?_, ?_, ?_, ?_, ?_⟩
    · rw [hr']
      exact h.outputs.document
    · intro n j hn
      rcases hcompletes.keys n j hn with hn | ⟨rfl, heq⟩
      · exact h.outputs.owner n j hn
      · cases heq
        exact ⟨name, hname, .inr rfl⟩
    · intro n
      rw [howners, hdefinitions]
      split
      · rfl
      · exact h.outputs.keys n
    · intro c hc hpending
      obtain ⟨name', schema, hname', hlookup, hbody'⟩ := h.outputs.output c (hdefined c hc) hpending
      obtain ⟨name'', hname'', howner⟩ := hdefined c hc
      rw [hname'] at hname''
      cases hname''
      exact ⟨name', schema, hname', (htables name' c howner).2.trans hlookup, hbody'⟩
    · intro c hc hpending c' hc'
      obtain ⟨name', hname', howner⟩ := h.outputs.closed c (hdefined c hc) hpending c' hc'
      exact ⟨name', hname', (htables name' c' howner).1⟩
  -- the form that is finished has the answer, the component and the body that it should
  obtain ⟨name', hname', howner⟩ := h.building i hbuilding
  rw [hname] at hname'
  cases hname'
  have hform : Form inputs r' i (reference (inputName name)) name built :=
    { component := hname
      answer := by rw [hcompletes.differs, formName, if_pos ⟨rfl, hmem⟩]
      owner := (htables name i howner).1
      body := by rw [hcompletes.differs]; exact hbody
      same := fun hnot => absurd hmem (hcompletes.differs ▸ hnot)
      differs := fun _ => by
        rw [howners, hdefinitions, if_pos rfl, if_pos rfl]
        exact ⟨rfl, rfl⟩
      settled := fun c hc => hcompletes.settled (hsettled c hc) }
  exact ⟨hcompletes, h.complete hbuilding hcompletes houtputs hform⟩

/-! ## Calls -/

/-- What a call for a request form does on a document, unless it finds a conflict. -/
def RequestsCall (inputs : ι → DeriveInput ι) (named : Named ι) : Prop :=
  ∀ i r schema r', Requests inputs r → named true i r = some (schema, r') → r'.conflicts = [] →
    Requests inputs r' ∧ Step none r r' ∧ Answers inputs r'.inputDiffers true i schema ∧
      ∀ c, Leads inputs i c → Settled r' c

/-- The questions of a request body, one after the other. -/
theorem RequestsCall.mapM {fuel : ℕ} (h : RequestsCall inputs (derived inputs fuel))
    {asks : List (Ask ι)} {answers : List Json} (hr : Requests inputs r)
    (hrun : asks.mapM (Ask.run (derived inputs fuel) true) r = some (answers, r'))
    (hconflicts : r'.conflicts = []) :
    Requests inputs r' ∧ Step none r r' ∧
      List.Forall₂ (AskAnswers inputs r'.inputDiffers true) asks answers ∧
        ∀ k, Ask.mention k ∈ asks → ∀ c, Leads inputs k c → Settled r' c := by
  induction asks generalizing r answers with
  | nil =>
    cases hrun
    exact ⟨hr, .refl _, .nil, fun k hk => absurd hk List.not_mem_nil⟩
  | cons q asks ih =>
    rw [List.mapM_cons] at hrun
    obtain ⟨schema, r₁, hfirst, hrun⟩ := eq_some_of_bind hrun
    obtain ⟨schemas, r₂, hrest, hrun⟩ := eq_some_of_bind hrun
    cases hrun
    -- no conflict was found meanwhile
    have hconflicts₁ := (conflictsStay_asks fuel true asks _ _ _ hrest).eq_nil hconflicts
    cases q with
    | mention k =>
      obtain ⟨hr₁, hstep, hanswer, hleads⟩ := h k r schema r₁ hr hfirst hconflicts₁
      obtain ⟨hr', hstep', hanswers, hall⟩ := ih hr₁ hrest
      -- the answer is still right in the end
      have hanswer' := hanswer.congr fun _ c hc => hstep'.differs_iff (hleads c hc)
      refine ⟨hr', hstep.trans hstep', .cons hanswer' hanswers, ?_⟩
      intro k' hk' c hc
      rcases List.mem_cons.mp hk' with heq | hk'
      · cases heq
        exact hstep'.settled (hleads c hc)
      · exact hall k' hk' c hc
    | flattened k =>
      obtain ⟨_, hmap, heq⟩ := Option.bind_eq_some_iff.mp hfirst
      obtain ⟨p, hp, rfl⟩ := Option.map_eq_some_iff.mp hmap
      cases heq
      obtain ⟨hr', hstep', hanswers, hall⟩ := ih hr hrest
      refine ⟨hr', hstep', .cons ⟨fuel, p.2, hp⟩ hanswers, ?_⟩
      intro k' hk' c hc
      rcases List.mem_cons.mp hk' with heq | hk'
      · cases heq
      · exact hall k' hk' c hc

/-- A request body is built. -/
theorem RequestsCall.body {fuel : ℕ} (h : RequestsCall inputs (derived inputs fuel))
    (hr : Requests inputs r)
    (hrun : ((inputs i).plan true).run (Ask.run (derived inputs fuel) true) r = some (built, r'))
    (hconflicts : r'.conflicts = []) :
    Requests inputs r' ∧ Step none r r' ∧ Body inputs r'.inputDiffers true i built ∧
      ∀ c, Mentions inputs i c → Settled r' c := by
  obtain ⟨answers, r₁, hasks, hanswer⟩ := eq_some_of_bind hrun
  cases hanswer
  obtain ⟨hr', hstep, hanswers, hall⟩ := h.mapM hr hasks hconflicts
  rw [DeriveInput.asks_plan] at hanswers hall
  refine ⟨hr', hstep, ⟨answers, hanswers, rfl⟩, ?_⟩
  rintro c ⟨k, hk, hleads⟩
  exact hall k hk c hleads

theorem conflictsStay_plan (fuel : ℕ) (request : Bool) (i : ι) : Moves ConflictsStay
    (((inputs i).plan request).run (Ask.run (derived inputs fuel) request)) := by
  refine Moves.run ConflictsStay.refl (fun _ _ _ => ConflictsStay.trans) ?_
  intro q _
  cases q with
  | mention k => exact conflicts_le fuel request k
  | flattened k => exact Moves.lift ConflictsStay.refl _

/-- The answer of a type that is done, or being built. -/
theorem Requests.answer_of_some (h : Requests inputs r) (hname : (inputs i).component? = some name)
    {state : InputState} (hstate : r.inputs.lookup i = some state) {output input : Gen ι Json}
    {schema : Json} (hrun : defineInput i name output input r = some (schema, r')) :
    Requests inputs r' ∧ Step none r r' ∧
      schema = reference (formName r'.inputDiffers true i name) ∧ Settled r' i := by
  have hinline := h.outputs.document
  cases state with
  | done answer =>
    rw [defineInput_of_done hinline hstate] at hrun
    cases hrun
    obtain ⟨name', built, hform⟩ := h.done i schema hstate
    have hname' := hform.component
    rw [hname] at hname'
    cases hname'
    exact ⟨h, .refl r, hform.answer, settled_of_done hstate⟩
  | building =>
    rw [defineInput_of_building hinline hstate] at hrun
    split at hrun
    · rename_i hmem
      cases hrun
      refine ⟨h, .refl r, ?_, .building, hstate, fun _ => .inl hmem⟩
      rw [formName, if_pos ⟨rfl, hmem⟩]
    · rename_i hmem
      cases hrun
      obtain ⟨hr', hstep⟩ := h.assume i
      refine ⟨hr', hstep, ?_, .building, hstate, fun _ => .inr (Finset.mem_insert_self _ _)⟩
      rw [formName, if_neg fun hboth => hmem hboth.2]

/-- `define_input` for a new type: its output, its request body, and if they differ its request body
    once more. -/
theorem RequestsCall.define_new {fuel : ℕ} (h : RequestsCall inputs (derived inputs fuel))
    (hr : Requests inputs r) (hname : (inputs i).component? = some name)
    (hnone : r.inputs.lookup i = none) {schema : Json}
    (hrun : defineInput i name
      (((inputs i).plan false).run (Ask.run (derived inputs fuel) false))
      (((inputs i).plan true).run (Ask.run (derived inputs fuel) true)) r = some (schema, r'))
    (hconflicts : r'.conflicts = []) :
    Requests inputs r' ∧ Step none r r' ∧
      schema = reference (formName r'.inputDiffers true i name) ∧ Settled r' i := by
  have hinline := hr.outputs.document
  obtain ⟨outputRef, r₁, built, r₂, hdefine, hinput⟩ := exists_of_defineInput hinline hnone hrun
  rw [defineInput_of_new hinline hnone hdefine hinput] at hrun
  have hstay₂ := conflictsStay_plan fuel true i _ _ _ hinput
  -- until the request body has been built, there are three more things to say
  have hbegin : r₂.conflicts = [] → outputRef = reference name ∧ Requests inputs r₁ ∧
      Step (some i) r r₁ ∧ r₁.completed = r.completed ∧ Requests inputs r₂ ∧ Step (some i) r r₂ ∧
        r₂.inputs.lookup i = some .building ∧ Body inputs r₂.inputDiffers true i built ∧
          ∀ c, Mentions inputs i c → Settled r₂ c := by
    intro hconflicts₂
    have hconflicts₁ := hstay₂.eq_nil hconflicts₂
    have hstart : Outputs inputs { r with inputs := r.inputs.insert i .building } ∅ :=
      hr.outputs.congr rfl rfl rfl
    obtain ⟨houtputs, houtputStep, href, howner⟩ :=
      (outputs_call fuel).define hname hstart hdefine hconflicts₁
    obtain ⟨hr₁, hstep₁, hbuilding₁⟩ := hr.begin hnone houtputs houtputStep ⟨name, hname, howner⟩
    obtain ⟨hr₂, hstep₂, hbody, hsettled⟩ := h.body hr₁ hinput hconflicts₂
    exact ⟨href, hr₁, hstep₁, by rw [houtputStep.rest], hr₂, hstep₁.trans hstep₂,
      hstep₂.old i _ hbuilding₁, hbody, hsettled⟩
  split at hrun
  · rename_i hequal
    cases hrun
    obtain ⟨href, -, -, -, hr₂, hstep, hbuilding, hbody, hsettled⟩ := hbegin hconflicts
    obtain ⟨hcompletes, hr', hsame⟩ := hr₂.finish_same hbuilding hname hbody hsettled hequal
    rw [href]
    refine ⟨hr', hstep.complete hnone hcompletes, ?_, ?_⟩
    · rw [formName, if_neg]
      exact fun hboth => hsame hboth.2
    · exact settled_of_done ((hcompletes.inputs i).trans (if_pos rfl))
  · rename_i hequal
    obtain ⟨⟨built', r₃⟩, hsecond, heq⟩ := Option.map_eq_some_iff.mp hrun
    cases heq
    have hconflicts₃ : r₃.conflicts = [] :=
      ConflictsStay.eq_nil (conflicts_registerInput r₃ i name built') hconflicts
    -- whether the request body was built once or twice
    have hthird : Requests inputs r₃ ∧ Step (some i) r r₃ ∧ r₃.inputs.lookup i = some .building ∧
        i ∈ r₃.inputDiffers ∧ Body inputs r₃.inputDiffers true i built' ∧
          ∀ c, Mentions inputs i c → Settled r₃ c := by
      split at hsecond
      · rename_i hassumed
        have hstay₃ := conflictsStay_plan fuel true i _ _ _ hsecond
        have hconflicts₂ : r₂.conflicts = [] := by
          have hdiscarded := hstay₃.eq_nil hconflicts₃
          rw [discard_rest] at hdiscarded
          exact hdiscarded
        obtain ⟨-, hr₁, hstep₁, hcompleted, hr₂, hstep, hbuilding, hbody, hsettled⟩ :=
          hbegin hconflicts₂
        have hchanged := hr₂.changed_of_ne hname (hr₂.building i hbuilding) hbody hequal
        obtain ⟨hr₄, hstep₄, hbuilding₄, hdiffers₄⟩ :=
          hr.discard hnone hstep hr₂ hbuilding hchanged rfl
        obtain ⟨hr₃, hstep₃, hbody₃, hsettled₃⟩ := h.body hr₄ hsecond hconflicts₃
        refine ⟨hr₃, hstep₄.trans hstep₃, hstep₃.old i _ hbuilding₄, ?_, hbody₃, hsettled₃⟩
        apply hstep₃.differs
        rw [hdiffers₄]
        exact Finset.mem_insert_self _ _
      · rename_i hassumed
        cases hsecond
        obtain ⟨-, -, -, -, hr₂, hstep, hbuilding, hbody, hsettled⟩ := hbegin hconflicts₃
        have hchanged := hr₂.changed_of_ne hname (hr₂.building i hbuilding) hbody hequal
        obtain ⟨hr₃, hiff⟩ := hr₂.differ hbuilding hassumed hchanged
        refine ⟨hr₃, ?_, hbuilding, Finset.mem_insert_self _ _,
          hbody.congr fun _ c hc => hiff c (hsettled c hc), ?_⟩
        · exact hstep.differ hnone
        · rintro c hc
          obtain ⟨state, hlookup, hknown⟩ := hsettled c hc
          exact ⟨state, hlookup, fun hstate => (hknown hstate).imp_left (Finset.mem_insert_of_mem)⟩
    obtain ⟨hr₃, hstep₃, hbuilding₃, hmem, hbody₃, hsettled₃⟩ := hthird
    obtain ⟨hcompletes, hr'⟩ :=
      hr₃.register hbuilding₃ hname hmem hbody₃ hsettled₃ hconflicts rfl
    refine ⟨hr', hstep₃.complete hnone hcompletes, ?_, ?_⟩
    · rw [hcompletes.differs, formName, if_pos ⟨rfl, hmem⟩]
    · exact settled_of_done ((hcompletes.inputs i).trans (if_pos rfl))

/-- **Calls for request forms** keep the components of a document in order. -/
theorem requests_call (fuel : ℕ) : RequestsCall inputs (derived inputs fuel) := by
  induction fuel with
  | zero =>
    intro i r schema r' _ hrun
    cases hrun
  | succ fuel ih =>
    intro i r schema r' hr hrun hconflicts
    cases hcomponent : (inputs i).component? with
    | some name =>
      rw [derived_of_some inputs fuel true hcomponent, if_pos rfl] at hrun
      have hresult : Requests inputs r' ∧ Step none r r' ∧
          schema = reference (formName r'.inputDiffers true i name) ∧ Settled r' i := by
        cases hstate : r.inputs.lookup i with
        | some state => exact hr.answer_of_some hcomponent hstate hrun
        | none => exact ih.define_new hr hcomponent hstate hrun hconflicts
      obtain ⟨hr', hstep, rfl, hsettled⟩ := hresult
      refine ⟨hr', hstep, .component hcomponent, ?_⟩
      intro c hc
      rw [eq_of_leads hcomponent hc]
      exact hsettled
    | none =>
      rw [derived_of_none inputs fuel true hcomponent] at hrun
      obtain ⟨answers, r₁, hasks, hanswer⟩ := eq_some_of_bind hrun
      cases hanswer
      obtain ⟨hr', hstep, hanswers, hall⟩ := ih.mapM hr hasks hconflicts
      rw [DeriveInput.asks_plan] at hanswers hall
      refine ⟨hr', hstep, answers_of_transparent hcomponent hanswers, ?_⟩
      intro c hc
      obtain ⟨k, hk, hleads⟩ := mention_of_forwards hcomponent hc
      exact hall k hk c hleads

end Components

end OasRs.Schema
