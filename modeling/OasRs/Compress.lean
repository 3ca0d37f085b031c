import OasRs.Http

/-!
# Response Compression

`src/compress.rs`: the negotiation of an encoding, which responses may be compressed, and
the layer itself. A `GET` decides from the body, a `HEAD` from the headers that the router
left it.

## Main results

- `mirrors_iff`: exactly when the answer to a `HEAD` describes the answer to the `GET`
-/

namespace OasRs.Compression

/-! ## Configuration -/

/-- `Compress` -/
structure Compress where
  minSize : ℕ
  level : ℕ
  brotliQuality : ℕ
  level_le : level ≤ 9
  brotliQuality_le : brotliQuality ≤ 11

/-- `Compress::new` -/
def Compress.new : Compress where
  minSize := 1024
  level := 6
  brotliQuality := 4
  level_le := by decide
  brotliQuality_le := by decide

/-- `min_size` -/
def Compress.withMinSize (c : Compress) (bytes : ℕ) : Compress := { c with minSize := bytes }

/-- `Encoding` -/
inductive Encoding where
  | gzip
  | brotli
  deriving DecidableEq, Repr

/-- `Encoding::token` -/
def Encoding.token : Encoding → Text
  | .gzip => str "gzip"
  | .brotli => str "br"

/-- The `f32` of the language: its comparison, two constants and its parser. -/
structure F32 where
  Value : Type
  gt : Value → Value → Bool
  zero : Value
  one : Value
  parse : Text → Option Value

/-- The build and the code that it links: whether the `compression-brotli` feature is on,
    `f32`, and the encoders (with the configured level and quality). -/
structure Build where
  brotli : Bool
  f32 : F32
  encode : Compress → Encoding → Bytes → Bytes

/-! ## Negotiation -/

section Negotiate

variable (build : Build)

/-- The quality of an entry: the first `q` parameter that is a number, or `1.0`. -/
def qualityOf (params : List Text) : build.f32.Value :=
  (params.findSome? fun param =>
    (splitOnce (str "=") param).bind fun (name, value) =>
      if eqIgnoreCase (trim name) (str "q") then build.f32.parse (trim value) else none).getD
    build.f32.one

/-- The codings of an `Accept-Encoding` value with their qualities. -/
def entries (value : Text) : List (Text × build.f32.Value) :=
  (value.splitOn comma).map fun entry =>
    let parts := entry.splitOn semicolon
    (lowercase (trim (parts.head?.getD [])), qualityOf build parts.tail)

/-- The last entry for one of the names, or else the last star. -/
def entryQuality (entries : List (Text × build.f32.Value)) (names : List Text) :
    Option build.f32.Value :=
  let named := entries.reverse.find? fun (coding, _) => names.contains coding
  (named.or (entries.reverse.find? fun (coding, _) => coding == str "*")).map Prod.snd

/-- The `consider` of `negotiate`: a positive quality that beats the best one so far. -/
def consider (best : Option (Encoding × build.f32.Value)) (encoding : Encoding)
    (quality : Option build.f32.Value) : Option (Encoding × build.f32.Value) :=
  match quality.filter fun quality => build.f32.gt quality build.f32.zero with
  | some quality =>
    if (best.map fun (_, current) => build.f32.gt quality current).getD true then
      some (encoding, quality)
    else best
  | none => best

/-- `negotiate`: brotli is considered first, so that it wins a tie. -/
def negotiate (value : Text) : Option Encoding :=
  let entries := entries build value
  let best :=
    if build.brotli then consider build none .brotli (entryQuality build entries [str "br"])
    else none
  (consider build best .gzip (entryQuality build entries [str "gzip", str "x-gzip"])).map Prod.fst

end Negotiate

/-! ## Which responses -/

/-- `compressible` -/
def compressible (contentType : Text) : Bool :=
  let mediaType := lowercase (trim ((contentType.splitOn semicolon).head?.getD []))
  (str "text/").isPrefixOf mediaType ||
    [str "application/json", str "application/xml", str "application/javascript",
      str "application/x-javascript", str "image/svg+xml"].contains mediaType ||
    (str "+json").isSuffixOf mediaType || (str "+xml").isSuffixOf mediaType

/-- `add_vary` -/
def addVary (headers : HeaderMap) : HeaderMap :=
  let present := (headers.items .vary).any fun token =>
    trim token == str "*" || eqIgnoreCase (trim token) (str "accept-encoding")
  if present then headers else headers.append .vary (str "Accept-Encoding")

/-- `MIN_COMPRESSIBLE` -/
def minCompressible : ℕ := 32

/-- `weaken_etag` -/
def weakenEtag (headers : HeaderMap) : HeaderMap :=
  match headers.get .etag with
  | some etag =>
    if (str "W/").isPrefixOf etag then headers
    else
      match HeaderValue.fromBytes (str "W/" ++ etag) with
      | some weak => headers.insert .etag weak
      | none => headers
  | none => headers

/-- A type that can be compressed, and no encoding yet. -/
def isCompressible (headers : HeaderMap) : Bool :=
  !headers.containsKey .contentEncoding &&
    (((headers.get .contentType).bind HeaderValue.toStr).map compressible).getD false

/-- `Cache-Control: no-transform` -/
def noTransform (headers : HeaderMap) : Bool :=
  (headers.items .cacheControl).any fun directive => eqIgnoreCase (trim directive) (str "no-transform")

/-- The responses that are never transformed: those that forbid it, those without a body of
    their own, and ranges. -/
def excluded (status : ℕ) (headers : HeaderMap) : Bool :=
  noTransform headers || (100 ≤ status && status < 200) || status == 204 || status == 304 ||
    status == 206 || headers.containsKey .contentRange

/-! ## The layer -/

section Handle

variable (build : Build) (c : Compress)

/-- The smallest body that is compressed. -/
def threshold : ℕ := max c.minSize minCompressible

/-- The header lines of `Accept-Encoding` as one list. -/
def acceptEncoding (request : HeaderMap) : Text :=
  (str ",").intercalate ((request.getAll .acceptEncoding).filterMap HeaderValue.toStr)

/-- `Compress::handle`, from the answer of the chain below. The blocking pool only decides
    where a large body is encoded. -/
def handle (isHead : Bool) (request : HeaderMap) (response : Response) : Response :=
  if !isCompressible response.headers then response
  else
    let response := { response with headers := addVary response.headers }
    match negotiate build (acceptEncoding request) with
    | none => response
    | some encoding =>
      if excluded response.status response.headers then response
      else if isHead then
        -- the body is gone: describe what the GET would get
        let largeEnough := (response.headers.contentLength.map fun length =>
          decide (threshold c ≤ length)).getD false
        if largeEnough then
          { response with
            headers := weakenEtag ((response.headers.remove .contentLength).insert
              .contentEncoding encoding.token) }
        else response
      else
        match response.body with
        | .stream _ => response
        | .full slot =>
          match slot.filter fun body => threshold c ≤ body.len with
          | none => response
          | some body =>
            let compressed := build.encode c encoding body
            if compressed.len = 0 then response
            else
              let headers := response.headers.insert .contentEncoding encoding.token
              let headers :=
                if headers.containsKey .contentLength then
                  headers.insert .contentLength (decimal compressed.len)
                else headers
              { response with headers := weakenEtag headers, body := .full (some compressed) }

/-! ## What a HEAD should say -/

/-- The same status, and the same headers but for the `Content-Length`. -/
def Mirrors (head get : Response) : Prop :=
  head.status = get.status ∧
    ∀ name, name ≠ .contentLength → head.headers.values name = get.headers.values name

/-- Everything but the size of the body speaks for compressing a response. -/
def Eligible (request : HeaderMap) (response : Response) : Prop :=
  isCompressible response.headers = true ∧
    (negotiate build (acceptEncoding request)).isSome = true ∧
    excluded response.status (addVary response.headers) = false

/-- A stream that declares a length over the threshold. -/
def StreamsLength (response : Response) : Prop :=
  (∃ chunks, response.body = .stream chunks) ∧
    ∃ length, response.headers.contentLength = some length ∧ threshold c ≤ length

end Handle

/-! ## Headers that agree -/

/-- The same headers but for the `Content-Length`. -/
def Agree (headers headers' : HeaderMap) : Prop :=
  ∀ name, name ≠ .contentLength → headers.values name = headers'.values name

namespace Agree

variable {headers headers' : HeaderMap}

theorem insert (h : Agree headers headers') (name : HeaderName) (value : HeaderValue) :
    Agree (headers.insert name value) (headers'.insert name value) := by
  intro other hother
  rw [HeaderMap.values_insert, HeaderMap.values_insert, h other hother]

theorem append (h : Agree headers headers') {name : HeaderName} (hname : name ≠ .contentLength)
    (value : HeaderValue) : Agree (headers.append name value) (headers'.append name value) := by
  intro other hother
  rw [HeaderMap.values_append, HeaderMap.values_append, h other hother, h name hname]

theorem remove (headers : HeaderMap) : Agree (headers.remove .contentLength) headers := by
  intro other hother
  rw [HeaderMap.values_remove, if_neg hother]

theorem insertLength (headers : HeaderMap) (value : HeaderValue) :
    Agree (headers.insert .contentLength value) headers := by
  intro other hother
  rw [HeaderMap.values_insert, if_neg hother]

theorem trans {headers'' : HeaderMap} (h : Agree headers headers') (h' : Agree headers' headers'') :
    Agree headers headers'' := fun name hname => (h name hname).trans (h' name hname)

theorem symm (h : Agree headers headers') : Agree headers' headers :=
  fun name hname => (h name hname).symm

theorem isCompressible (h : Agree headers headers') :
    isCompressible headers = isCompressible headers' := by
  rw [Compression.isCompressible, Compression.isCompressible, HeaderMap.containsKey,
    HeaderMap.containsKey, h _ (by decide), HeaderMap.get_congr (h .contentType (by decide))]

theorem excluded (h : Agree headers headers') (status : ℕ) :
    excluded status headers = excluded status headers' := by
  rw [Compression.excluded, Compression.excluded, noTransform, noTransform, HeaderMap.containsKey,
    HeaderMap.containsKey, h .contentRange (by decide),
    HeaderMap.items_congr (h .cacheControl (by decide))]

theorem addVary (h : Agree headers headers') : Agree (addVary headers) (addVary headers') := by
  rw [Compression.addVary, Compression.addVary, HeaderMap.items_congr (h .vary (by decide))]
  intro other hother
  split
  · exact h other hother
  · exact h.append (by decide) _ other hother

theorem weakenEtag (h : Agree headers headers') : Agree (weakenEtag headers) (weakenEtag headers') := by
  rw [Compression.weakenEtag, Compression.weakenEtag, HeaderMap.get_congr (h .etag (by decide))]
  split
  · split
    · exact h
    · split
      · exact h.insert _ _
      · exact h
  · exact h

end Agree

/-- What the router's `HEAD` answer keeps. -/
theorem agree_maybeHeadFlag (response : Response) :
    Agree (maybeHeadFlag true response).headers response.headers :=
  fun _ hname => values_maybeHeadFlag response hname

theorem values_addVary (headers : HeaderMap) {name : HeaderName} (h : name ≠ .vary) :
    (addVary headers).values name = headers.values name := by
  rw [addVary]
  split
  · rfl
  · rw [HeaderMap.values_append, if_neg h]

theorem values_weakenEtag (headers : HeaderMap) {name : HeaderName} (h : name ≠ .etag) :
    (weakenEtag headers).values name = headers.values name := by
  rw [weakenEtag]
  split
  · split
    · rfl
    · split
      · rw [HeaderMap.values_insert, if_neg h]
      · rfl
  · rfl

theorem contentLength_addVary (headers : HeaderMap) :
    (addVary headers).contentLength = headers.contentLength := by
  rw [HeaderMap.contentLength, HeaderMap.contentLength,
    HeaderMap.get_congr (values_addVary headers (by decide))]

/-! ## The layer, case by case -/

section Cases

variable {build : Build} {c : Compress} {request : HeaderMap} {response : Response}

/-- The headers of a response that is not compressed. -/
def passedHeaders (headers : HeaderMap) : HeaderMap :=
  if isCompressible headers then addVary headers else headers

/-- The headers of a response that is. -/
def compressedHeaders (encoding : Encoding) (headers : HeaderMap) : HeaderMap :=
  weakenEtag ((addVary headers).insert .contentEncoding encoding.token)

theorem values_compressedHeaders (encoding : Encoding) (headers : HeaderMap) :
    (compressedHeaders encoding headers).values .contentEncoding = [encoding.token] := by
  rw [compressedHeaders, values_weakenEtag _ (by decide), HeaderMap.values_insert, if_pos rfl]

theorem values_passedHeaders {headers : HeaderMap} (h : isCompressible headers = true) :
    (passedHeaders headers).values .contentEncoding = [] := by
  rw [passedHeaders, if_pos h, values_addVary _ (by decide)]
  rw [isCompressible, Bool.and_eq_true, Bool.not_eq_true'] at h
  exact (HeaderMap.containsKey_eq_false _ _).mp h.1

theorem handle_of_not_eligible (h : ¬ Eligible build request response) (isHead : Bool) :
    handle build c isHead request response =
      { response with headers := passedHeaders response.headers } := by
  unfold handle passedHeaders
  cases hcompressible : isCompressible response.headers with
  | false => rfl
  | true =>
    simp only [Bool.not_true, Bool.false_eq_true, if_false, if_true]
    cases hnegotiate : negotiate build (acceptEncoding request) with
    | none => rfl
    | some encoding =>
      have hexcluded : excluded response.status (addVary response.headers) = true := by
        by_contra hcontra
        exact h ⟨hcompressible, by rw [hnegotiate]; rfl, by simpa using hcontra⟩
      simp [hexcluded]

theorem Eligible.congr {response' : Response} (hstatus : response.status = response'.status)
    (hagree : Agree response.headers response'.headers) :
    Eligible build request response ↔ Eligible build request response' := by
  rw [Eligible, Eligible, hagree.isCompressible, hagree.addVary.excluded, hstatus]

theorem agree_passedHeaders {headers headers' : HeaderMap} (h : Agree headers headers') :
    Agree (passedHeaders headers) (passedHeaders headers') := by
  rw [passedHeaders, passedHeaders, h.isCompressible]
  split
  · exact h.addVary
  · exact h

/-- A `HEAD` describes a compressed answer if the declared length is over the threshold. -/
theorem handle_head (h : Eligible build request response) {encoding : Encoding}
    (hencoding : negotiate build (acceptEncoding request) = some encoding) :
    (handle build c true request response).status = response.status ∧
      Agree (handle build c true request response).headers
        (if (response.headers.contentLength.map fun length =>
            decide (threshold c ≤ length)).getD false then
          compressedHeaders encoding response.headers
        else passedHeaders response.headers) := by
  obtain ⟨hcompressible, -, hexcluded⟩ := h
  unfold handle
  simp only [hcompressible, Bool.not_true, Bool.false_eq_true, if_false, hencoding, hexcluded,
    if_true, contentLength_addVary]
  split
  · exact ⟨rfl, ((Agree.remove _).insert _ _).weakenEtag⟩
  · refine ⟨rfl, ?_⟩
    rw [passedHeaders, if_pos hcompressible]
    exact fun _ _ => rfl

/-- A `GET` leaves a stream alone. -/
theorem handle_stream {chunks : List Text} (hbody : response.body = .stream chunks) :
    handle build c false request response =
      { response with headers := passedHeaders response.headers } := by
  unfold handle passedHeaders
  cases isCompressible response.headers with
  | false => rfl
  | true =>
    simp only [Bool.not_true, Bool.false_eq_true, if_false, if_true]
    split
    · rfl
    · split
      · rfl
      · simp [hbody]

/-- A `GET` compresses a buffered body whose size is over the threshold. -/
theorem handle_full (h : Eligible build request response) {encoding : Encoding}
    (hencoding : negotiate build (acceptEncoding request) = some encoding)
    (hencode : ∀ body, (build.encode c encoding body).len ≠ 0) {bytes : Option Bytes}
    (hbody : response.body = .full bytes) :
    (handle build c false request response).status = response.status ∧
      Agree (handle build c false request response).headers
        (if threshold c ≤ (bytes.map Bytes.len).getD 0 then
          compressedHeaders encoding response.headers
        else passedHeaders response.headers) := by
  obtain ⟨hcompressible, -, hexcluded⟩ := h
  have hpassed : passedHeaders response.headers = addVary response.headers := by
    rw [passedHeaders, if_pos hcompressible]
  have hpositive : ¬ threshold c ≤ 0 := by
    have : minCompressible ≤ threshold c := le_max_right _ _
    simp only [minCompressible] at this
    omega
  unfold handle
  simp only [hcompressible, Bool.not_true, Bool.false_eq_true, if_false, hencoding, hexcluded,
    hbody]
  cases bytes with
  | none =>
    simp only [Option.filter_none, Option.map_none, Option.getD_none, hpositive, if_false, hpassed]
    exact ⟨trivial, fun _ _ => rfl⟩
  | some body =>
    simp only [Option.map_some, Option.getD_some]
    by_cases hlength : threshold c ≤ body.len
    · simp only [Option.filter_some, hlength, decide_true, if_true, hencode, if_false]
      refine ⟨trivial, ?_⟩
      apply Agree.weakenEtag
      split
      · exact Agree.insertLength _ _
      · exact fun _ _ => rfl
    · simp only [Option.filter_some, hlength, decide_false, Bool.false_eq_true, if_false, hpassed]
      exact ⟨trivial, fun _ _ => rfl⟩

/-- **When `HEAD` mirrors `GET`.** The answer to a `HEAD` has the status and the headers of the
    answer to the `GET`, but for the length, unless the response is a stream that declares
    a length over the threshold and could otherwise be compressed. -/
theorem mirrors_iff (hencode : ∀ encoding body, (build.encode c encoding body).len ≠ 0)
    (hhonest : response.Honest) :
    Mirrors (handle build c true request (maybeHeadFlag true response))
        (handle build c false request response) ↔
      ¬ (StreamsLength c response ∧ Eligible build request response) := by
  have hagree := agree_maybeHeadFlag response
  have hsame : Eligible build request (maybeHeadFlag true response) ↔
      Eligible build request response := Eligible.congr (status_maybeHeadFlag response) hagree
  -- the two are eligible alike; what differs is how the body is measured
  by_cases h : Eligible build request response
  · obtain ⟨encoding, hencoding⟩ := Option.isSome_iff_exists.mp h.2.1
    obtain ⟨hstatus, hheaders⟩ := handle_head (c := c) (hsame.mpr h) hencoding
    rw [and_iff_left h, Mirrors, hstatus]
    cases hbody : response.body with
    | full bytes =>
      -- the declared length is the size of the body
      rw [contentLength_maybeHeadFlag_full hhonest hbody] at hheaders
      obtain ⟨hstatus', hheaders'⟩ := handle_full h hencoding (hencode encoding) hbody
      have hstream : ¬ StreamsLength c response := by
        rintro ⟨⟨chunks, hchunks⟩, -⟩
        rw [hbody] at hchunks
        cases hchunks
      refine iff_of_true ⟨hstatus'.symm, ?_⟩ hstream
      refine hheaders.trans (Agree.trans ?_ hheaders'.symm)
      simp only [Option.map_some, Option.getD_some, decide_eq_true_eq]
      split
      · exact (hagree.addVary.insert _ _).weakenEtag
      · exact agree_passedHeaders hagree
    | stream chunks =>
      rw [headers_maybeHeadFlag_stream hbody] at hheaders
      rw [handle_stream hbody]
      by_cases hlength : (response.headers.contentLength.map fun length =>
          decide (threshold c ≤ length)).getD false = true
      · -- the `HEAD` claims an encoding that the `GET` does not have
        rw [if_pos hlength] at hheaders
        have hstreams : StreamsLength c response := by
          refine ⟨⟨chunks, hbody⟩, ?_⟩
          cases hcl : response.headers.contentLength with
          | none => simp [hcl] at hlength
          | some length => exact ⟨length, rfl, by simpa [hcl] using hlength⟩
        refine iff_of_false (fun hmirrors => ?_) (not_not.mpr hstreams)
        have hencoded := (hheaders .contentEncoding (by decide)).symm.trans
          (hmirrors.2 .contentEncoding (by decide))
        rw [values_compressedHeaders, values_passedHeaders h.1] at hencoded
        exact absurd hencoded (List.cons_ne_nil _ _)
      · rw [if_neg hlength] at hheaders
        have hstreams : ¬ StreamsLength c response := by
          rintro ⟨-, length, hcl, hle⟩
          exact hlength (by simp [hcl, hle])
        exact iff_of_true ⟨rfl, hheaders⟩ hstreams
  -- neither is compressed, and both pass with the same headers
  · refine iff_of_true ?_ fun hcontra => h hcontra.2
    rw [handle_of_not_eligible (fun h' => h (hsame.mp h')), handle_of_not_eligible h]
    exact ⟨rfl, agree_passedHeaders hagree⟩

end Cases

/-! ## Examples -/

/-- A build without brotli. The examples do not get as far as the encoder, and no quality is
    written out. -/
def gzipBuild : Build where
  brotli := false
  f32 := { Value := ℕ, gt := fun a b => decide (a > b), zero := 0, one := 1, parse := decimalValue }
  encode _ _ _ := { data := [0x1F], length_le := by decide }

/-- `Accept-Encoding: gzip` -/
def acceptsGzip : HeaderMap := HeaderMap.empty.insert .acceptEncoding (str "gzip")

/-- A text that is streamed: 40 bytes, declared or not. -/
def streamedText (declared : Bool) : Response where
  status := 200
  headers :=
    let headers := HeaderMap.empty.insert .contentType (str "text/plain")
    if declared then headers.insert .contentLength (str "40") else headers
  body := .stream [List.replicate 40 0x61]

/-- A stream without a declared length is left alone by both. -/
theorem mirrors_iff_undeclared :
    Mirrors
      (handle gzipBuild (Compress.new.withMinSize 1) true acceptsGzip
        (maybeHeadFlag true (streamedText false)))
      (handle gzipBuild (Compress.new.withMinSize 1) false acceptsGzip (streamedText false)) := by
  have hencode : ∀ encoding body,
      (gzipBuild.encode (Compress.new.withMinSize 1) encoding body).len ≠ 0 :=
    fun _ _ => Nat.one_ne_zero
  have hundeclared : (streamedText false).headers.containsKey .contentLength = false := by
    decide +kernel
  have hhonest : (streamedText false).Honest := fun h => by
    rw [hundeclared] at h
    cases h
  have hnone : (streamedText false).headers.contentLength = none := by decide +kernel
  apply (mirrors_iff hencode hhonest).mpr
  rintro ⟨⟨-, length, hlength, -⟩, -⟩
  rw [hnone] at hlength
  cases hlength

/-- The `HEAD` of a stream that declares 40 bytes says `gzip`, and the `GET` sends text. -/
theorem not_mirrors_streamed :
    ¬ Mirrors
      (handle gzipBuild (Compress.new.withMinSize 1) true acceptsGzip
        (maybeHeadFlag true (streamedText true)))
      (handle gzipBuild (Compress.new.withMinSize 1) false acceptsGzip (streamedText true)) := by
  intro h
  have hencoding := h.2 .contentEncoding (by decide)
  revert hencoding
  decide +kernel

end OasRs.Compression
