import OasRs.HeaderLists
import OasRs.StaticFiles

/-!
# Delivering Files

What `serve` of `src/static_files.rs` does with a file that it has found: the validators and
conditional requests, the body of a small file, and `FileChunks` for a large one. HTTP dates are
parameters; no file is older than the epoch.

## Main results

- `fileChunks_exact`: a stream gives the bytes of the file, no more than it declares, and fewer
  only where the file ends early or a read fails
- `delivery_honest`: the declared length of an answer
- `revalidation_exact`: a client that shows its entity tags gets `304` exactly for the current one
-/

namespace OasRs

open Lib.Pairs (cut cut_append_cons)

/-! ## `FileChunks` -/

/-- `CHUNK` of `src/static_files.rs` -/
def fileChunkSize : ℕ := 64 * 1024

/-- How a read of the file turns out. -/
inductive FileRead where
  | pending
  | failed
  /-- up to one more than so many bytes are there, unless the file ends before -/
  | ready (extra : ℕ)

/-- `FileChunks`: what reads of the file will give, and how much is still wanted of it. -/
structure FileChunks where
  rest : Text
  remaining : ℕ

/-- What a poll of the stream gives. -/
inductive ChunkPoll where
  | pending
  | chunk (bytes : Text)
  | ended
  deriving DecidableEq

namespace FileChunks

/-- `FileChunks::poll_next`, with the outcome of the read -/
def pollNext (chunks : FileChunks) (read : FileRead) : ChunkPoll × FileChunks :=
  if chunks.remaining = 0 then (.ended, chunks)
  else
    match read with
    | .pending => (.pending, chunks)
    | .failed => (.ended, { chunks with remaining := 0 })
    | .ready extra =>
      let size := min fileChunkSize chunks.remaining
      let bytes := chunks.rest.take (min (extra + 1) size)
      -- the file shrank
      if bytes.length = 0 then (.ended, { chunks with remaining := 0 })
      else
        (.chunk bytes,
          { rest := chunks.rest.drop bytes.length, remaining := chunks.remaining - bytes.length })

/-- The chunks of some polls, up to the end of the stream, and whether it has ended. -/
def collect (chunks : FileChunks) : List FileRead → List Text × Bool
  | [] => ([], false)
  | read :: reads =>
    match chunks.pollNext read with
    | (.ended, _) => ([], true)
    | (.pending, chunks) => chunks.collect reads
    | (.chunk bytes, chunks) => (bytes :: (chunks.collect reads).1, (chunks.collect reads).2)

end FileChunks

/-- Whether a read comes to something. -/
def FileRead.isDone : FileRead → Bool
  | .pending => false
  | _ => true

namespace FileChunks

variable {chunks : FileChunks} {read : FileRead}

/-- What a poll does: it waits, it ends the stream, or it gives the next bytes of the file. -/
theorem pollNext_cases (chunks : FileChunks) (read : FileRead) :
    (chunks.pollNext read = (.pending, chunks) ∧ read = .pending ∧ 0 < chunks.remaining) ∨
      (∃ next, chunks.pollNext read = (.ended, next) ∧
        (read = .failed ∨ chunks.rest.take chunks.remaining = [])) ∨
      ∃ bytes rest, chunks.rest = bytes ++ rest ∧ 0 < bytes.length ∧
        bytes.length ≤ fileChunkSize ∧ bytes.length ≤ chunks.remaining ∧
        chunks.pollNext read =
          (.chunk bytes, { rest, remaining := chunks.remaining - bytes.length }) := by
  unfold pollNext
  by_cases hdone : chunks.remaining = 0
  · right; left
    rw [if_pos hdone]
    exact ⟨_, rfl, .inr (by rw [hdone, List.take_zero])⟩
  rw [if_neg hdone]
  cases read with
  | pending => exact .inl ⟨rfl, rfl, Nat.pos_of_ne_zero hdone⟩
  | failed => exact .inr (.inl ⟨_, rfl, .inl rfl⟩)
  | ready extra =>
    right
    dsimp only
    have hsize : 0 < min fileChunkSize chunks.remaining :=
      lt_min (by decide) (Nat.pos_of_ne_zero hdone)
    have hbound : min (extra + 1) (min fileChunkSize chunks.remaining) ≤
        min fileChunkSize chunks.remaining := Nat.min_le_right _ _
    have hlength := List.length_take (i := min (extra + 1) (min fileChunkSize chunks.remaining))
      (l := chunks.rest)
    split
    · -- nothing is left of the file
      left
      have hempty : chunks.rest = [] := by
        rw [← List.length_eq_zero_iff]
        omega
      exact ⟨_, rfl, .inr (by rw [hempty, List.take_nil])⟩
    · right
      have hchunk := hbound.trans (Nat.min_le_left _ _)
      have hremaining := hbound.trans (Nat.min_le_right _ _)
      exact ⟨_, _, (List.prefix_iff_eq_append.mp (List.take_prefix _ _)).symm, by omega, by omega,
        by omega, rfl⟩

/-- Nothing is sent but the bytes of the file, in their order. -/
theorem collect_prefix (chunks : FileChunks) (reads : List FileRead) :
    (chunks.collect reads).1.flatten <+: chunks.rest.take chunks.remaining := by
  induction reads generalizing chunks with
  | nil => exact List.nil_prefix
  | cons read reads ih =>
    rw [collect]
    rcases chunks.pollNext_cases read with ⟨hpoll, _⟩ | ⟨next, hpoll, _⟩ |
      ⟨bytes, rest, hrest, _, _, hle, hpoll⟩
    · rw [hpoll]
      exact ih chunks
    · rw [hpoll]
      exact List.nil_prefix
    · rw [hpoll, hrest, List.take_append, List.take_of_length_le hle]
      exact (List.prefix_append_right_inj bytes).mpr (ih _)

theorem mem_collect {reads : List FileRead} {bytes : Text} (h : bytes ∈ (chunks.collect reads).1) :
    bytes ≠ [] ∧ bytes.length ≤ fileChunkSize := by
  induction reads generalizing chunks with
  | nil => cases h
  | cons read reads ih =>
    rw [collect] at h
    rcases chunks.pollNext_cases read with ⟨hpoll, _⟩ | ⟨next, hpoll, _⟩ |
      ⟨chunk, rest, _, hpos, hsize, _, hpoll⟩
    · rw [hpoll] at h
      exact ih h
    · rw [hpoll] at h
      cases h
    · rw [hpoll] at h
      rcases List.mem_cons.mp h with rfl | hlater
      · exact ⟨List.ne_nil_of_length_pos hpos, hsize⟩
      · exact ih hlater

/-- Where no read fails, the end of the stream is the end of what was to be sent. -/
theorem collect_whole {reads : List FileRead} (hended : (chunks.collect reads).2 = true)
    (hreads : ∀ read ∈ reads, read ≠ .failed) :
    (chunks.collect reads).1.flatten = chunks.rest.take chunks.remaining := by
  induction reads generalizing chunks with
  | nil => cases hended
  | cons read reads ih =>
    have hlater : ∀ read ∈ reads, read ≠ .failed :=
      fun read hread => hreads read (List.mem_cons_of_mem _ hread)
    rw [collect] at hended ⊢
    rcases chunks.pollNext_cases read with ⟨hpoll, _⟩ | ⟨next, hpoll, hwhy⟩ |
      ⟨bytes, rest, hrest, _, _, hle, hpoll⟩
    · rw [hpoll] at hended ⊢
      exact ih hended hlater
    · rw [hpoll]
      rcases hwhy with hfailed | hempty
      · exact absurd hfailed (hreads read List.mem_cons_self)
      · exact hempty.symm
    · rw [hpoll] at hended ⊢
      rw [hrest, List.take_append, List.take_of_length_le hle]
      exact congrArg (bytes ++ ·) (ih hended hlater)

/-- Each read that comes to something gives a byte at least, or ends the stream. -/
theorem collect_ends {reads : List FileRead}
    (h : chunks.remaining < reads.countP FileRead.isDone) : (chunks.collect reads).2 = true := by
  induction reads generalizing chunks with
  | nil => cases h
  | cons read reads ih =>
    rw [collect]
    rw [List.countP_cons] at h
    rcases chunks.pollNext_cases read with ⟨hpoll, rfl, _⟩ | ⟨next, hpoll, _⟩ |
      ⟨bytes, rest, _, hpos, _, _, hpoll⟩
    · rw [hpoll]
      exact ih h
    · rw [hpoll]
    · rw [hpoll]
      apply ih
      show chunks.remaining - bytes.length < _
      split at h <;> omega

/-- **A file is sent whole, and never more than was declared.** For every file, every number of
bytes to send and every sequence of reads: the chunks are the first bytes of the file, up to that
number, none is empty or above the chunk size; a stream that ends without a failed read has given
all of them; and it ends after as many reads as there are bytes, at the latest. -/
theorem fileChunks_exact (chunks : FileChunks) (reads : List FileRead) :
    (chunks.collect reads).1.flatten <+: chunks.rest.take chunks.remaining ∧
      (∀ bytes ∈ (chunks.collect reads).1, bytes ≠ [] ∧ bytes.length ≤ fileChunkSize) ∧
      ((chunks.collect reads).2 = true → (∀ read ∈ reads, read ≠ .failed) →
        (chunks.collect reads).1.flatten = chunks.rest.take chunks.remaining) ∧
      (chunks.remaining < reads.countP FileRead.isDone → (chunks.collect reads).2 = true) := by
  refine ⟨chunks.collect_prefix reads, ?_, ?_, ?_⟩
  · intro bytes hbytes
    exact mem_collect hbytes
  · intro hended hreads
    exact collect_whole hended hreads
  · exact collect_ends

end FileChunks

/-! ## Validators -/

/-- `make_etag`, for a file of some length and the nanoseconds of its time -/
def makeEtag (length nanos : ℕ) : Text :=
  str "W/\"" ++ hexadecimal length ++ str "-" ++ hexadecimal nanos ++ str "\""

/-- `weak_tag` -/
def weakTag (tag : Text) : Text :=
  let tag := trim tag
  trim (if (str "W/").isPrefixOf tag then tag.drop 2 else tag)

/-- `httpdate`: writing and reading, in seconds since the epoch -/
structure HttpDates where
  format : ℕ → HeaderValue
  parse : Text → Option ℕ

/-- `Validators` -/
structure Validators where
  ifNoneMatch : Option Text
  ifModifiedSince : Option Text

/-- `not_modified`, for a file with an entity tag and a time in nanoseconds -/
def notModified (dates : HttpDates) (validators : Validators) (etag : Text) (nanos : ℕ) : Bool :=
  match validators.ifNoneMatch with
  | some list =>
    (list.splitOn comma).any fun candidate =>
      trim candidate == str "*" || weakTag candidate == weakTag etag
  | none =>
    match validators.ifModifiedSince.bind dates.parse with
    | some since => nanos / 10 ^ 9 ≤ since
    | none => false

/-! ## `serve` -/

/-- The table of `content_type` -/
def contentTypes : List (List String × String) :=
  [(["html", "htm"], "text/html; charset=utf-8"), (["css"], "text/css; charset=utf-8"),
    (["js", "mjs"], "text/javascript; charset=utf-8"), (["json", "map"], "application/json"),
    (["txt", "md"], "text/plain; charset=utf-8"), (["webmanifest"], "application/manifest+json"),
    (["xhtml"], "application/xhtml+xml"), (["bmp"], "image/bmp"),
    (["eot"], "application/vnd.ms-fontobject"), (["flac"], "audio/flac"), (["m4a"], "audio/mp4"),
    (["jsonld"], "application/ld+json"), (["rss", "atom"], "application/xml"),
    (["csv"], "text/csv; charset=utf-8"), (["xml"], "application/xml"), (["svg"], "image/svg+xml"),
    (["png"], "image/png"), (["jpg", "jpeg"], "image/jpeg"), (["gif"], "image/gif"),
    (["webp"], "image/webp"), (["avif"], "image/avif"), (["ico"], "image/x-icon"),
    (["woff"], "font/woff"), (["woff2"], "font/woff2"), (["ttf"], "font/ttf"), (["otf"], "font/otf"),
    (["pdf"], "application/pdf"), (["wasm"], "application/wasm"), (["mp4"], "video/mp4"),
    (["webm"], "video/webm"), (["mp3"], "audio/mpeg"), (["ogg"], "audio/ogg"), (["wav"], "audio/wav"),
    (["zip"], "application/zip"), (["gz"], "application/gzip")]

/-- `Path::extension`: what follows the last dot of the name, unless the name begins with it -/
def extension (path : FilePath) : Option Text :=
  (path.getLast?.filter fun name => name != str "..").bind fun name =>
    let after := name.rtakeWhile (· != 0x2E)
    if after.length + 1 < name.length then some after else none

/-- `content_type` -/
def fileContentType (path : FilePath) : Text :=
  let extension := lowercase (((extension path).filter validUtf8).getD [])
  ((contentTypes.find? fun entry => entry.1.any (str · == extension)).map (str ·.2)).getD
    (str "application/octet-stream")

/-- `SMALL_FILE` -/
def smallFile : ℕ := 64 * 1024

/-- A file that is open: what its handle tells, and how reads of it turn out. -/
structure OpenFile where
  /-- `metadata.len()` -/
  length : ℕ
  /-- `metadata.modified()`, in nanoseconds since the epoch -/
  modified : Option ℕ
  content : Text
  /-- whether a read to the end fails -/
  unreadable : Bool
  /-- how the reads of a stream turn out -/
  reads : List FileRead

/-- The bytes of a small file, no more than its handle told. -/
def OpenFile.readToEnd (file : OpenFile) (h : file.length ≤ smallFile) : Bytes where
  data := file.content.take file.length
  length_le := (List.length_take_le _ _).trans (h.trans (by decide))

/-- The validators of a request. -/
def validatorsOf (headers : HeaderMap) : Validators where
  ifNoneMatch := (headers.get (.custom (str "if-none-match"))).bind HeaderValue.toStr
  ifModifiedSince := (headers.get (.custom (str "if-modified-since"))).bind HeaderValue.toStr

/-- A header that may be missing -/
def HeaderMap.insertIf (headers : HeaderMap) (name : HeaderName) (value : Option HeaderValue) :
    HeaderMap :=
  value.elim headers (headers.insert name)

/-- The headers of every answer about a file. -/
def fileHeaders (dates : HttpDates) (cacheControl : Option HeaderValue) (path : FilePath)
    (file : OpenFile) : HeaderMap :=
  (((HeaderMap.empty.insert .contentType (fileContentType path)).insert
      (.custom (str "accept-ranges")) (str "none")).insert
      (.custom (str "x-content-type-options")) (str "nosniff")).insertIf .cacheControl cacheControl
    |>.insertIf (.custom (str "last-modified"))
      (file.modified.map fun nanos => dates.format (nanos / 10 ^ 9))

/-- A `200` with a length and an entity tag. -/
def fileResponse (headers : HeaderMap) (etag : Option Text) (length : ℕ) (body : ResponseBody) :
    Response where
  status := 200
  headers := (headers.insertIf .etag etag).insert .contentLength (decimal length)
  body

/-- Whether the client has the file as it is: there is a `304` only for a file with a time. -/
def OpenFile.isKnown (dates : HttpDates) (request : Parts) (file : OpenFile) : Bool :=
  file.modified.any fun nanos =>
    notModified dates (validatorsOf request.headers) (makeEtag file.length nanos) nanos

/-- What `serve` does with the file that it has found. -/
def deliver (dates : HttpDates) (cacheControl : Option HeaderValue)
    (openFile : FilePath → Option OpenFile) (request : Parts) (resolved : Resolved) :
    Option Response := do
  let file ← openFile resolved.path
  let etag := file.modified.map (makeEtag file.length)
  let headers := fileHeaders dates cacheControl resolved.path file
  if file.isKnown dates request then
    some { status := 304, headers := headers.insertIf .etag etag, body := .full (some .new) }
  else if request.method = .head then
    some (fileResponse headers etag file.length (.full (some .new)))
  else if h : file.length ≤ smallFile then
    if file.unreadable then none
    else
      -- the length and the tag are those of the bytes that were read
      let bytes := file.readToEnd h
      let etag := file.modified.map (makeEtag bytes.len)
      some (fileResponse headers etag bytes.len (.full (some bytes)))
  else
    let chunks : FileChunks := { rest := file.content, remaining := file.length }
    some (fileResponse headers etag file.length (.stream (chunks.collect file.reads).1))

/-! ## Entity tags -/

/-- `b'"'` -/
def quote : UInt8 := 0x22

/-- What stands in the quotes of an entity tag. -/
def tagValue (length nanos : ℕ) : Text := hexadecimal length ++ minus :: hexadecimal nanos

theorem makeEtag_eq (length nanos : ℕ) :
    makeEtag length nanos =
      0x57 :: (slash :: quote :: tagValue length nanos ++ [quote]) := by
  have hmark : str "W/\"" = [0x57, slash, quote] := by decide +kernel
  have hdash : str "-" = [minus] := by decide +kernel
  have hquote : str "\"" = [quote] := by decide +kernel
  simp only [makeEtag, hmark, hdash, hquote, tagValue, List.append_assoc, List.cons_append,
    List.nil_append]

/-- The bytes of an entity tag: visible, no space and no comma. -/
theorem mem_makeEtag {length nanos : ℕ} {byte : UInt8} (h : byte ∈ makeEtag length nanos) :
    isSpace byte = false ∧ 0x20 ≤ byte ∧ byte < 0x7F ∧ byte ≠ comma := by
  have hdigits : ∀ d : Fin 16, isSpace (hexDigitByte d) = false ∧ 0x20 ≤ hexDigitByte d ∧
      hexDigitByte d < 0x7F ∧ hexDigitByte d ≠ comma := by decide
  have hnumber : ∀ n, byte ∈ hexadecimal n →
      isSpace byte = false ∧ 0x20 ≤ byte ∧ byte < 0x7F ∧ byte ≠ comma := by
    intro n hmem
    obtain ⟨digit, hdigit, rfl⟩ := mem_hexadecimal hmem
    exact hdigits ⟨digit, hdigit⟩
  rw [makeEtag_eq, tagValue] at h
  simp only [List.mem_cons, List.mem_append, List.cons_append, List.append_assoc,
    List.not_mem_nil, or_false] at h
  rcases h with rfl | rfl | rfl | hlength | rfl | hnanos | rfl
  · decide
  · decide
  · decide
  · exact hnumber length hlength
  · decide
  · exact hnumber nanos hnanos
  · decide

theorem trim_makeEtag (length nanos : ℕ) : trim (makeEtag length nanos) = makeEtag length nanos :=
  trim_of_not_isSpace fun _ hbyte => (mem_makeEtag hbyte).1

/-- The compared part of an entity tag. -/
theorem weakTag_makeEtag (length nanos : ℕ) :
    weakTag (makeEtag length nanos) = quote :: (tagValue length nanos ++ [quote]) := by
  have hweak : (str "W/").isPrefixOf (makeEtag length nanos) = true := by
    have hmark : str "W/" = [0x57, slash] := by decide +kernel
    rw [makeEtag_eq, hmark]
    simp
  have hdrop : (makeEtag length nanos).drop 2 = quote :: (tagValue length nanos ++ [quote]) := by
    rw [makeEtag_eq]
    rfl
  rw [weakTag, trim_makeEtag]
  simp only [hweak, if_true]
  rw [trim_of_not_isSpace, hdrop]
  intro byte hbyte
  exact (mem_makeEtag (List.mem_of_mem_drop hbyte)).1

/-- A digit is not the dash. -/
theorem minus_notMem_hexadecimal (n : ℕ) : minus ∉ hexadecimal n := by
  intro hmem
  obtain ⟨digit, hdigit, hbyte⟩ := mem_hexadecimal hmem
  have hall : ∀ d : Fin 16, minus ≠ hexDigitByte d := by decide
  exact hall ⟨digit, hdigit⟩ hbyte

/-- An entity tag tells the length and the time of a file. -/
theorem tagValue_inj {length nanos length' nanos' : ℕ}
    (h : tagValue length nanos = tagValue length' nanos') : length = length' ∧ nanos = nanos' := by
  -- both are cut at their first dash
  have hcut := congrArg (cut minus) h
  rw [tagValue, tagValue, cut_append_cons (minus_notMem_hexadecimal length),
    cut_append_cons (minus_notMem_hexadecimal length')] at hcut
  obtain ⟨hlength, hnanos⟩ := Prod.mk.inj (Option.some.inj hcut)
  exact ⟨hexadecimal_injective hlength, hexadecimal_injective hnanos⟩

/-! ## Conditional requests -/

/-- An entity tag that a client has from an answer, with blanks around it. -/
structure ShownTag where
  before : Text
  length : ℕ
  nanos : ℕ
  after : Text

namespace ShownTag

def entry (tag : ShownTag) : Entry :=
  { before := tag.before, value := makeEtag tag.length tag.nanos, after := tag.after }

/-- The value of an `If-None-Match` header. -/
def list (tags : List ShownTag) : HeaderValue := Entry.line (tags.map entry)

/-- The blanks are spaces and tabs. -/
def Blank (tag : ShownTag) : Prop := ∀ byte ∈ tag.before ++ tag.after, byte = 0x20 ∨ byte = 0x09

variable {tag : ShownTag} {tags : List ShownTag}

theorem Blank.written (h : tag.Blank) : tag.entry.Written where
  blank := h
  visible := fun _ hbyte => (mem_makeEtag hbyte).2
  trimmed := trim_makeEtag _ _

theorem written_of_mem (h : ∀ tag ∈ tags, tag.Blank) : ∀ shown ∈ tags.map entry, shown.Written := by
  intro shown hshown
  obtain ⟨tag, htag, rfl⟩ := List.mem_map.mp hshown
  exact (h tag htag).written

theorem Blank.weakTag_text (h : tag.Blank) :
    weakTag tag.entry.text = quote :: (tagValue tag.length tag.nanos ++ [quote]) := by
  rw [← weakTag_makeEtag, weakTag, weakTag, h.written.trim_text, entry, trim_makeEtag]

theorem Blank.trim_text (h : tag.Blank) : trim tag.entry.text ≠ str "*" := by
  have hstar : str "*" = [0x2A] := by decide +kernel
  rw [h.written.trim_text, entry, makeEtag_eq, hstar]
  intro heq
  cases heq

end ShownTag

/-- Tags that a client shows: one is that of the file, or none is. -/
theorem notModified_list (dates : HttpDates) {tags : List ShownTag} (hne : tags ≠ [])
    (h : ∀ tag ∈ tags, tag.Blank) (since : Option Text) (length nanos : ℕ) :
    notModified dates { ifNoneMatch := some (ShownTag.list tags), ifModifiedSince := since }
        (makeEtag length nanos) nanos = true ↔
      ∃ tag ∈ tags, tag.length = length ∧ tag.nanos = nanos := by
  have hentries : (ShownTag.list tags).splitOn comma = tags.map (Entry.text ∘ ShownTag.entry) := by
    rw [ShownTag.list, Entry.splitOn_line (by simpa using hne) (ShownTag.written_of_mem h),
      List.map_map]
  simp only [notModified]
  rw [hentries, List.any_map, List.any_eq_true]
  apply exists_congr
  intro tag
  apply and_congr_right
  intro htag
  have hblank := h tag htag
  rw [Function.comp_apply, Function.comp_apply, Bool.or_eq_true, beq_iff_eq, beq_iff_eq,
    hblank.weakTag_text, weakTag_makeEtag]
  constructor
  · rintro (hstar | hsame)
    · exact absurd hstar hblank.trim_text
    · exact tagValue_inj (List.append_cancel_right (List.cons.inj hsame).2)
  · rintro ⟨rfl, rfl⟩
    exact .inr rfl

section Deliver

variable {dates : HttpDates} {cacheControl : Option HeaderValue}
  {openFile : FilePath → Option OpenFile} {request : Parts} {resolved : Resolved} {file : OpenFile}

/-- The answers about a file. -/
inductive Delivered (dates : HttpDates) (cacheControl : Option HeaderValue) (request : Parts)
    (path : FilePath) (file : OpenFile) : Response → Prop where
  | known (h : file.isKnown dates request = true) :
      Delivered dates cacheControl request path file
        { status := 304
          headers := (fileHeaders dates cacheControl path file).insertIf .etag
            (file.modified.map (makeEtag file.length))
          body := .full (some .new) }
  | head (h : file.isKnown dates request = false) (hmethod : request.method = .head) :
      Delivered dates cacheControl request path file
        (fileResponse (fileHeaders dates cacheControl path file)
          (file.modified.map (makeEtag file.length)) file.length (.full (some .new)))
  | small (h : file.isKnown dates request = false) (hmethod : request.method ≠ .head)
      (hsmall : file.length ≤ smallFile) (hread : file.unreadable = false) :
      Delivered dates cacheControl request path file
        (fileResponse (fileHeaders dates cacheControl path file)
          (file.modified.map (makeEtag (file.readToEnd hsmall).len)) (file.readToEnd hsmall).len
          (.full (some (file.readToEnd hsmall))))
  | large (h : file.isKnown dates request = false) (hmethod : request.method ≠ .head)
      (hlarge : ¬ file.length ≤ smallFile) :
      Delivered dates cacheControl request path file
        (fileResponse (fileHeaders dates cacheControl path file)
          (file.modified.map (makeEtag file.length)) file.length
          (.stream (FileChunks.collect { rest := file.content, remaining := file.length }
            file.reads).1))

theorem delivered (hfile : openFile resolved.path = some file) {response : Response}
    (h : deliver dates cacheControl openFile request resolved = some response) :
    Delivered dates cacheControl request resolved.path file response := by
  unfold deliver at h
  rw [hfile, Option.bind_eq_bind, Option.bind_some] at h
  dsimp only at h
  split at h
  · cases h
    exact .known ‹_›
  · have hunknown : file.isKnown dates request = false := Bool.eq_false_iff.mpr ‹_›
    split at h
    · cases h
      exact .head hunknown ‹_›
    · split at h
      · split at h
        · cases h
        · cases h
          exact .small hunknown ‹_› ‹_› (Bool.eq_false_iff.mpr ‹_›)
      · cases h
        exact .large hunknown ‹_› ‹_›

/-- **Entity tags are exact.** A client that shows any tags it has from answers about files gets
`304` if and only if one of them has the length and the modification time, to the nanosecond, of
the file as it is now. -/
theorem revalidation_exact {nanos : ℕ} {tags : List ShownTag}
    (hfile : openFile resolved.path = some file) (hnanos : file.modified = some nanos)
    (hne : tags ≠ []) (hblank : ∀ tag ∈ tags, tag.Blank)
    (hrequest : request.headers.get (.custom (str "if-none-match")) = some (ShownTag.list tags)) :
    (∃ response, deliver dates cacheControl openFile request resolved = some response ∧
        response.status = 304) ↔
      ∃ tag ∈ tags, tag.length = file.length ∧ tag.nanos = nanos := by
  have hknown : file.isKnown dates request = true ↔
      ∃ tag ∈ tags, tag.length = file.length ∧ tag.nanos = nanos := by
    -- the header is the list of the tags, written as a client may write it
    have hvalidators : validatorsOf request.headers =
        { ifNoneMatch := some (ShownTag.list tags)
          ifModifiedSince := (validatorsOf request.headers).ifModifiedSince } := by
      rw [validatorsOf, hrequest, Option.bind_some, ShownTag.list,
        Entry.toStr_line (ShownTag.written_of_mem hblank)]
    rw [OpenFile.isKnown, hnanos, Option.any_some, hvalidators]
    exact notModified_list dates hne hblank _ _ _
  rw [← hknown]
  constructor
  · rintro ⟨response, hresponse, hstatus⟩
    -- of the answers that a file may get, one has this status
    cases delivered hfile hresponse with
    | known h => exact h
    | head | small | large => cases hstatus
  · intro h
    have hresponse : deliver dates cacheControl openFile request resolved =
        some
          { status := 304
            headers := (fileHeaders dates cacheControl resolved.path file).insertIf .etag
              (file.modified.map (makeEtag file.length))
            body := .full (some .new) } := by
      rw [deliver, hfile, Option.bind_eq_bind, Option.bind_some]
      dsimp only
      rw [if_pos h]
    exact ⟨_, hresponse, rfl⟩

/-- A file of three bytes, changed within the second in which the client saw two bytes. -/
theorem revalidation_exact_rewritten :
    (∃ response, deliver { format := fun _ => [], parse := fun _ => none } none
        (fun _ => some ⟨3, some 1700000001, str "abc", false, []⟩)
        { method := .get, path := [], query := none,
          headers := HeaderMap.empty.insert (.custom (str "if-none-match"))
            (ShownTag.list [⟨[], 2, 1700000000, [0x20]⟩, ⟨[0x20], 3, 1700000001, []⟩]) }
        ⟨[], .file, false⟩ = some response ∧ response.status = 304) ↔
      ∃ tag ∈ [(⟨[], 2, 1700000000, [0x20]⟩ : ShownTag), ⟨[0x20], 3, 1700000001, []⟩],
        tag.length = 3 ∧ tag.nanos = 1700000001 := by
  apply @revalidation_exact _ _ _ _ _ ⟨3, some 1700000001, str "abc", false, []⟩ _ _ rfl rfl
    (List.cons_ne_nil _ _)
  · intro tag htag
    simp only [List.mem_cons, List.not_mem_nil, or_false] at htag
    rcases htag with rfl | rfl <;> simp [ShownTag.Blank]
  · simp [HeaderMap.get]

/-- What a `200` declares: the number of bytes, which the entity tag repeats. -/
theorem fileResponse_declares (headers : HeaderMap) {nanos : Option ℕ} (length : ℕ)
    (body : ResponseBody) :
    (fileResponse headers (nanos.map (makeEtag length)) length body).headers.get .contentLength =
        some (decimal length) ∧
      ∀ n ∈ nanos, (fileResponse headers (nanos.map (makeEtag length)) length body).headers.get
        .etag = some (makeEtag length n) := by
  constructor
  · simp [fileResponse, HeaderMap.get]
  · rintro n hn
    rw [Option.mem_def] at hn
    subst hn
    simp [fileResponse, HeaderMap.get, HeaderMap.insertIf]

/-- What a file that the client does not have is answered to a `HEAD`. -/
theorem deliver_head (hfile : openFile resolved.path = some file)
    (h : file.isKnown dates request = false) :
    deliver dates cacheControl openFile { request with method := .head } resolved =
      some (fileResponse (fileHeaders dates cacheControl resolved.path file)
        (file.modified.map (makeEtag file.length)) file.length (.full (some .new))) := by
  have hsame : file.isKnown dates { request with method := .head } = false := h
  rw [deliver, hfile, Option.bind_eq_bind, Option.bind_some]
  dsimp only
  rw [if_neg (by rw [hsame]; exact Bool.false_ne_true), if_pos rfl]

/-- **What is declared is what is sent.** Every `200` declares a length, which its entity tag
repeats and which is at most that of the file when it was opened; the body is never longer. The body
of a small file is as long, also if the file got shorter. A large file is declared as it was opened,
and the body is as long once the stream has ended, unless the file ends early or a read fails. A
`HEAD` is answered with the status and the headers of the `GET`: for a large file whatever the
reads do, and for a small one if the file is still there when it is read. -/
theorem delivery_honest {response : Response} (hfile : openFile resolved.path = some file)
    (h : deliver dates cacheControl openFile request resolved = some response)
    (hstatus : response.status = 200) (hmethod : request.method ≠ .head) :
    ∃ length, response.headers.get .contentLength = some (decimal length) ∧
      (∀ nanos ∈ file.modified, response.headers.get .etag = some (makeEtag length nanos)) ∧
      length ≤ file.length ∧ response.body.length ≤ length ∧
      (file.length ≤ smallFile → response.body.length = length) ∧
      (smallFile < file.length → length = file.length ∧
        (file.length ≤ file.content.length → (∀ read ∈ file.reads, read ≠ .failed) →
          (FileChunks.collect ⟨file.content, file.length⟩ file.reads).2 = true →
            response.body.length = length)) ∧
      (smallFile < file.length ∨ file.length ≤ file.content.length →
        deliver dates cacheControl openFile { request with method := .head } resolved =
          some { response with body := .full (some .new) }) := by
  cases delivered hfile h with
  | known => cases hstatus
  | head _ hishead => exact absurd hishead hmethod
  -- a small file is read whole: the declared length is what was read
  | small hunknown _ hsmall =>
    obtain ⟨hlength, hetag⟩ := @fileResponse_declares
      (fileHeaders dates cacheControl resolved.path file) file.modified (file.readToEnd hsmall).len
      (.full (some (file.readToEnd hsmall)))
    have hread : (file.readToEnd hsmall).len = min file.length file.content.length :=
      List.length_take
    refine ⟨_, hlength, hetag, by omega, le_rfl, fun _ => rfl, fun hlarge => by omega, ?_⟩
    intro hthere
    have hsame : (file.readToEnd hsmall).len = file.length := by omega
    rw [deliver_head hfile hunknown, hsame]
    rfl
  -- a large file is sent in chunks, and never more than was declared
  | large hunknown _ hlarge =>
    let chunks : FileChunks := { rest := file.content, remaining := file.length }
    obtain ⟨hlength, hetag⟩ := @fileResponse_declares
      (fileHeaders dates cacheControl resolved.path file) file.modified file.length
      (.stream (chunks.collect file.reads).1)
    refine ⟨_, hlength, hetag, le_rfl, ?_, fun hsmall => absurd hsmall hlarge, ?_, ?_⟩
    · exact (chunks.collect_prefix file.reads).length_le.trans (List.length_take_le _ _)
    · refine fun _ => ⟨rfl, ?_⟩
      intro hthere hreads hended
      -- the stream ended where the file does, so that all of it is sent
      have hsent := congrArg List.length (FileChunks.collect_whole hended hreads)
      rw [List.length_take, Nat.min_eq_left hthere] at hsent
      exact hsent
    · intro _
      rw [deliver_head hfile hunknown]
      rfl

/-- A file that lost a byte after it was opened: two bytes are declared and sent. And a large one
that is read as it was: all of it is sent, and a `HEAD` has its headers. -/
theorem delivery_honest_files :
    let dates : HttpDates := { format := fun _ => [], parse := fun _ => none }
    let request : Parts := { method := .get, path := [], query := none, headers := .empty }
    let large : OpenFile :=
      ⟨70000, some 7, List.replicate 70000 0x61, false, List.replicate 70001 (.ready 99)⟩
    (∃ response, deliver dates none (fun _ => some ⟨3, some 7, [0x61, 0x62], false, []⟩) request
        ⟨[], .file, false⟩ = some response ∧
      response.headers.get .contentLength = some (decimal response.body.length) ∧
      response.body.length ≤ 3) ∧
    ∃ response, deliver dates none (fun _ => some large) request ⟨[], .file, false⟩ = some response ∧
      response.headers.get .contentLength = some (decimal 70000) ∧
      response.headers.get .etag = some (makeEtag 70000 7) ∧ response.body.length = 70000 ∧
      deliver dates none (fun _ => some large) { request with method := .head } ⟨[], .file, false⟩ =
        some { response with body := .full (some .new) } := by
  intro dates request large
  constructor
  · obtain ⟨response, hresponse⟩ : ∃ response, deliver dates none
        (fun _ => some ⟨3, some 7, [0x61, 0x62], false, []⟩) request ⟨[], .file, false⟩ =
          some response := ⟨_, rfl⟩
    have hstatus : response.status = 200 := by
      cases hresponse
      rfl
    obtain ⟨length, hlength, -, hle, -, hsmall, -⟩ :=
      delivery_honest rfl hresponse hstatus (by decide)
    have hsame : response.body.length = length := hsmall (by decide)
    exact ⟨response, hresponse, hsame ▸ hlength, hsame ▸ hle⟩
  · obtain ⟨response, hresponse, hstatus⟩ : ∃ response, deliver dates none (fun _ => some large)
        request ⟨[], .file, false⟩ = some response ∧ response.status = 200 := ⟨_, rfl, rfl⟩
    obtain ⟨length, hlength, hetag, -, -, -, hlarge, hhead⟩ :=
      delivery_honest rfl hresponse hstatus (by decide)
    obtain ⟨rfl, hsent⟩ := hlarge (by decide)
    have hended : (FileChunks.collect ⟨large.content, large.length⟩ large.reads).2 = true := by
      apply FileChunks.collect_ends
      show 70000 < (List.replicate 70001 (FileRead.ready 99)).countP FileRead.isDone
      rw [List.countP_replicate]
      decide
    have hreads : ∀ read ∈ large.reads, read ≠ .failed := by
      intro read hread
      rw [List.eq_of_mem_replicate hread]
      nofun
    exact ⟨response, hresponse, hlength, hetag 7 rfl,
      hsent (List.length_replicate).ge hreads hended, hhead (.inl (by decide))⟩

end Deliver

end OasRs
