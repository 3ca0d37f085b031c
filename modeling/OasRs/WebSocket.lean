import OasRs.HeaderLists
import OasRs.Lib.Base64
import OasRs.Lib.Machine
import OasRs.Responses

/-!
# WebSockets

`src/websocket.rs`: the handshake of `on_upgrade`, and the session that its handler gets. A client
of the handshake is described by what RFC 6455 asks of it. The wire protocol of an open session is a
parameter, as is the digest of the accept key.

## Main results

- `handshake_agrees`: client and server have the same idea of whether there is a session, and of its
  subprotocol
- `session_exact`: the transport of a session and its connection slot go together
-/

namespace OasRs.WebSockets

open Lib

/-! ## Requests -/

/-- `http::Version` -/
inductive Version where
  | http09
  | http10
  | http11
  | http2
  | http3
  deriving DecidableEq, Repr

/-- A request that a raw route gets, with the slot among its extensions. -/
structure RawRequest (P : Type) where
  parts : Parts
  version : Version
  permit : Option P

def connection : HeaderName := .custom (str "connection")
def upgrade : HeaderName := .custom (str "upgrade")
def secWebSocketVersion : HeaderName := .custom (str "sec-websocket-version")
def secWebSocketKey : HeaderName := .custom (str "sec-websocket-key")
def secWebSocketAccept : HeaderName := .custom (str "sec-websocket-accept")
def secWebSocketProtocol : HeaderName := .custom (str "sec-websocket-protocol")

/-- `validate_protocol`: a token -/
def validateProtocol (protocol : Text) : Bool :=
  !protocol.isEmpty && protocol.all HeaderName.isTokenByte

/-- The bytes of `valid_key`: a letter, a figure, `+` or `/` -/
def isKeyByte (byte : UInt8) : Bool :=
  (0x30 ≤ byte && byte ≤ 0x39) || (0x41 ≤ byte && byte ≤ 0x5A) || (0x61 ≤ byte && byte ≤ 0x7A) ||
    byte == 0x2B || byte == 0x2F

/-- `valid_key` -/
def validKey (key : HeaderValue) : Bool :=
  key.length == 24 && (str "==").isSuffixOf key && (key.take 22).all isKeyByte

/-! ## `WebSocketUpgrade` -/

/-- `DEFAULT_MAX_MESSAGE` -/
def defaultMaxMessage : ℕ := 1024 * 1024

/-- `WebSocketUpgrade`. A `Duration` is a number of milliseconds. -/
structure WebSocketUpgrade (P : Type) where
  request : RawRequest P
  protocols : List Text
  origins : List Text
  maxMessageSize : ℕ
  idleTimeout : Option ℕ
  validateProtocol_of_mem : ∀ protocol ∈ protocols, validateProtocol protocol = true

/-- The digest that a server answers a key with, in Base64. -/
structure AcceptKey where
  derive : HeaderValue → HeaderValue
  derive_visible : ∀ key, ∀ byte ∈ derive key, 0x20 < byte ∧ byte < 0x7F

/-- What the task of a session begins with. -/
structure Spawned (P : Type) where
  idle : Option ℕ
  maxMessageSize : ℕ
  permit : Option P

namespace WebSocketUpgrade

variable {P : Type}

/-- `WebSocketUpgrade::new` -/
def new (request : RawRequest P) : WebSocketUpgrade P where
  request
  protocols := []
  origins := []
  maxMessageSize := defaultMaxMessage
  idleTimeout := none
  validateProtocol_of_mem := nofun

/-- `allow_origin` -/
def allowOrigin (socket : WebSocketUpgrade P) (origin : Text) : WebSocketUpgrade P :=
  { socket with origins := socket.origins ++ [origin] }

/-- `protocols`, which panics for a name that is not a token -/
def withProtocols (socket : WebSocketUpgrade P) (protocols : List Text) :
    Option (WebSocketUpgrade P) :=
  if h : protocols.all validateProtocol = true then
    some { socket with protocols, validateProtocol_of_mem := List.all_eq_true.mp h }
  else none

/-- `idle_timeout` -/
def withIdleTimeout (socket : WebSocketUpgrade P) (timeout : ℕ) : WebSocketUpgrade P :=
  { socket with idleTimeout := some timeout }

/-- `max_message_size` -/
def withMaxMessageSize (socket : WebSocketUpgrade P) (bytes : ℕ) : WebSocketUpgrade P :=
  { socket with maxMessageSize := bytes }

/-- The closure `contains`: whether a list has a token. -/
def contains (headers : HeaderMap) (name : HeaderName) (token : Text) : Bool :=
  (headers.items name).any fun part => eqIgnoreCase (trim part) token

/-- Whether an `Origin` header is refused. -/
def refuses (origins : List Text) (origin : Option HeaderValue) : Bool :=
  !origins.isEmpty && origin.any fun origin => !(origin.toStr.map origins.contains).getD false

/-- The subprotocols that a request offers. -/
def offered (headers : HeaderMap) : List Text := (headers.items secWebSocketProtocol).map trim

/-- The first subprotocol of the server that the request offers, too. -/
def chosenProtocol (socket : WebSocketUpgrade P) : Option Text :=
  socket.protocols.find? (offered socket.request.parts.headers).contains

/-- `Response::builder()`, for one more header; it fails for what is no header value. -/
def header (headers : Option HeaderMap) (name : HeaderName) (value : Text) : Option HeaderMap := do
  let headers ← headers
  let value ← HeaderValue.fromBytes value
  some (headers.append name value)

section

-- `serde_json::to_vec(..).unwrap_or_default()`
variable (toVec : Json → Bytes) (accept : AcceptKey)

/-- The answer to another version of the protocol -/
def upgradeRequired : Response :=
  let response := (ApiError.new 426 "Upgrade Required"
    "WebSocket version 13 is required").intoResponse toVec
  { response with headers := response.headers.insert secWebSocketVersion (str "13") }

/-- `on_upgrade`: the response, and what the task of the session begins with, if one is spawned.
    It is `none` where the code panics. -/
def onUpgrade (socket : WebSocketUpgrade P) : Option (Response × Option (Spawned P)) :=
  let request := socket.request
  let headers := request.parts.headers
  if request.parts.method ≠ .get ∨ request.version ≠ .http11 ∨
      contains headers connection (str "upgrade") = false ∨
      contains headers upgrade (str "websocket") = false then
    some ((ApiError.badRequest "expected a WebSocket handshake").intoResponse toVec, none)
  else if ((headers.get secWebSocketVersion).bind HeaderValue.toStr).map trim ≠ some (str "13") then
    some (upgradeRequired toVec, none)
  else
    match (headers.get secWebSocketKey).filter validKey with
    | none =>
      some ((ApiError.badRequest "missing or invalid Sec-WebSocket-Key").intoResponse toVec, none)
    | some key =>
      if refuses socket.origins (headers.get .origin) then
        some ((ApiError.new 403 "Forbidden"
          "this origin may not open a WebSocket here").intoResponse toVec, none)
      else
        let builder := header (header (header (some .empty) connection (str "Upgrade"))
          upgrade (str "websocket")) secWebSocketAccept (accept.derive key)
        let builder :=
          match socket.chosenProtocol with
          | some protocol => header builder secWebSocketProtocol protocol
          | none => builder
        -- the task is spawned before the response is built
        builder.map fun headers =>
          ({ status := 101, headers, body := .full (some .new) },
            some { idle := socket.idleTimeout, maxMessageSize := socket.maxMessageSize,
                   permit := request.permit })

end

end WebSocketUpgrade

/-! ## Clients -/

/-- A client of the handshake: its nonce, the subprotocols it offers, line by line, and the origin
    of the page that it belongs to, if there is one. -/
structure Client where
  nonce : List UInt8
  offers : List (List Entry)
  origin : Option HeaderValue
  length_nonce : nonce.length = 16
  toStr_origin : ∀ value ∈ origin, HeaderValue.toStr value = some value

namespace Client

/-- `Sec-WebSocket-Key` -/
def key (client : Client) : HeaderValue := Base64.encode client.nonce

/-- The subprotocols of a client. -/
def protocols (client : Client) : List Text := client.offers.flatten.map Entry.value

/-- A header that has a token among others, in capitals or not. -/
def HasToken (headers : HeaderMap) (name : HeaderName) (token : Text) : Prop :=
  ∃ lines, Entry.Lists headers name lines ∧ ∃ entry ∈ lines.flatten, eqIgnoreCase entry.value token = true

/-- What a client sends. -/
structure Sends {P : Type} (client : Client) (request : RawRequest P) : Prop where
  method : request.parts.method = .get
  version : request.version = .http11
  connection : HasToken request.parts.headers connection (str "upgrade")
  upgrade : HasToken request.parts.headers upgrade (str "websocket")
  secWebSocketVersion : request.parts.headers.get secWebSocketVersion = some (str "13")
  secWebSocketKey : request.parts.headers.get secWebSocketKey = some client.key
  secWebSocketProtocol : Entry.Lists request.parts.headers secWebSocketProtocol client.offers
  origin : request.parts.headers.get .origin = client.origin

/-- Whether a client regards the connection as open after a response, and with which subprotocol. -/
def establishes (client : Client) (accept : AcceptKey) (response : Response) : Option (Option Text) :=
  if response.status = 101 ∧
      (response.headers.get upgrade).any (eqIgnoreCase · (str "websocket")) = true ∧
      WebSocketUpgrade.contains response.headers connection (str "upgrade") = true ∧
      (response.headers.get secWebSocketAccept).map trim = some (accept.derive client.key) then
    match response.headers.get secWebSocketProtocol with
    | none => some none
    | some protocol => if client.protocols.contains protocol then some (some protocol) else none
  else none

end Client

/-! ## The handshake -/

/-- A nonce in Base64 is a valid key. -/
theorem validKey_key (client : Client) : validKey client.key = true := by
  obtain ⟨digits, hencode, hdigits, hlength⟩ := Base64.encode_eq client.nonce
  rw [client.length_nonce] at hencode hlength
  have hpad : str "==" = [Base64.pad, Base64.pad] := by decide +kernel
  have hkey : client.key = digits ++ [Base64.pad, Base64.pad] := hencode
  have hall : digits.all isKeyByte = true := by
    rw [List.all_eq_true]
    intro byte hbyte
    have hdigit := hdigits byte hbyte
    simp only [Base64.isDigit, Bool.or_eq_true, Bool.and_eq_true] at hdigit
    simp only [isKeyByte, Bool.or_eq_true, Bool.and_eq_true]
    tauto
  have htake : client.key.take 22 = digits := by
    rw [hkey, List.take_left' (by omega)]
  rw [validKey, htake, hall, hkey, hpad]
  simp [hlength]

/-- The server finds the token that a client has written. -/
theorem contains_of_hasToken {headers : HeaderMap} {name : HeaderName} {token : Text}
    (h : Client.HasToken headers name token) : WebSocketUpgrade.contains headers name token = true := by
  obtain ⟨lines, hlines, entry, hentry, htoken⟩ := h
  have hmem : entry.value ∈ (headers.items name).map trim := by
    rw [hlines.items]
    exact List.mem_map_of_mem hentry
  obtain ⟨part, hpart, hvalue⟩ := List.mem_map.mp hmem
  rw [WebSocketUpgrade.contains, List.any_eq_true]
  exact ⟨part, hpart, by rw [hvalue, htoken]⟩

theorem fromBytes_of_visible {value : Text} (h : ∀ byte ∈ value, 0x20 < byte ∧ byte < 0x7F) :
    HeaderValue.fromBytes value = some value := by
  have hall : ∀ byte : UInt8, 0x20 < byte ∧ byte < 0x7F →
      ((0x20 ≤ byte && byte ≠ 0x7F) || byte == 0x09) = true := forall_byte (by decide +kernel)
  rw [HeaderValue.fromBytes, if_pos]
  rw [List.all_eq_true]
  intro byte hbyte
  exact hall byte (h byte hbyte)

theorem visible_of_token : ∀ byte, HeaderName.isTokenByte byte = true → 0x20 < byte ∧ byte < 0x7F :=
  forall_byte (by decide +kernel)

namespace WebSocketUpgrade

variable {P : Type} {socket : WebSocketUpgrade P}

/-- The headers of a handshake that succeeds. -/
def switching (accept : AcceptKey) (key : HeaderValue) (protocol : Option Text) : HeaderMap :=
  let headers := ((HeaderMap.empty.append connection (str "Upgrade")).append upgrade
    (str "websocket")).append secWebSocketAccept (accept.derive key)
  protocol.elim headers (headers.append secWebSocketProtocol)

/-- Every header of the response is one. -/
theorem builder_eq (socket : WebSocketUpgrade P) (accept : AcceptKey) (key : HeaderValue) :
    (match socket.chosenProtocol with
      | some protocol =>
        header (header (header (header (some .empty) connection (str "Upgrade")) upgrade
          (str "websocket")) secWebSocketAccept (accept.derive key)) secWebSocketProtocol protocol
      | none =>
        header (header (header (some .empty) connection (str "Upgrade")) upgrade
          (str "websocket")) secWebSocketAccept (accept.derive key)) =
      some (switching accept key socket.chosenProtocol) := by
  have hupgrade : HeaderValue.fromBytes (str "Upgrade") = some (str "Upgrade") := by decide +kernel
  have hwebsocket : HeaderValue.fromBytes (str "websocket") = some (str "websocket") := by
    decide +kernel
  have haccept := fromBytes_of_visible (accept.derive_visible key)
  cases hprotocol : socket.chosenProtocol with
  | none => simp [header, hupgrade, hwebsocket, haccept, switching]
  | some protocol =>
    -- the names of subprotocols are checked when they are given
    have hmem : protocol ∈ socket.protocols := List.mem_of_find?_eq_some hprotocol
    have htoken := socket.validateProtocol_of_mem protocol hmem
    rw [validateProtocol, Bool.and_eq_true, List.all_eq_true] at htoken
    have hvalue := fromBytes_of_visible fun byte hbyte =>
      visible_of_token byte (htoken.2 byte hbyte)
    simp [header, hupgrade, hwebsocket, haccept, hvalue, switching]

/-- What `on_upgrade` asks of a request. -/
structure Acceptable (socket : WebSocketUpgrade P) (key : HeaderValue) : Prop where
  method : socket.request.parts.method = .get
  version : socket.request.version = .http11
  connection : contains socket.request.parts.headers connection (str "upgrade") = true
  upgrade : contains socket.request.parts.headers upgrade (str "websocket") = true
  secWebSocketVersion :
    ((socket.request.parts.headers.get secWebSocketVersion).bind HeaderValue.toStr).map trim =
      some (str "13")
  secWebSocketKey : (socket.request.parts.headers.get secWebSocketKey).filter validKey = some key
  origin : refuses socket.origins (socket.request.parts.headers.get .origin) = false

/-- The session that is spawned. -/
def spawned (socket : WebSocketUpgrade P) : Spawned P where
  idle := socket.idleTimeout
  maxMessageSize := socket.maxMessageSize
  permit := socket.request.permit

theorem onUpgrade_of_acceptable (toVec : Json → Bytes) (accept : AcceptKey) {key : HeaderValue}
    (h : socket.Acceptable key) :
    socket.onUpgrade toVec accept =
      some ({ status := 101, headers := switching accept key socket.chosenProtocol,
              body := .full (some .new) }, some socket.spawned) := by
  have hfirst : ¬ (socket.request.parts.method ≠ .get ∨ socket.request.version ≠ .http11 ∨
      contains socket.request.parts.headers WebSockets.connection (str "upgrade") = false ∨
      contains socket.request.parts.headers WebSockets.upgrade (str "websocket") = false) := by
    simp [h.method, h.version, h.connection, h.upgrade]
  unfold onUpgrade
  dsimp only
  rw [if_neg hfirst, if_neg (not_not.mpr h.secWebSocketVersion), h.secWebSocketKey]
  dsimp only
  rw [h.origin, if_neg Bool.false_ne_true]
  have hbuilder := builder_eq socket accept key
  cases hprotocol : socket.chosenProtocol with
  | none | some protocol =>
    rw [hprotocol] at hbuilder
    dsimp only at hbuilder ⊢
    rw [hbuilder]
    rfl

/-- Everything else is refused, and no task is spawned. -/
theorem onUpgrade_of_not_acceptable (toVec : Json → Bytes) (accept : AcceptKey)
    (h : ∀ key, ¬ socket.Acceptable key) :
    ∃ response, socket.onUpgrade toVec accept = some (response, none) ∧
      (response.status = 400 ∨ response.status = 426 ∨ response.status = 403) := by
  unfold onUpgrade
  dsimp only
  split
  · exact ⟨_, rfl, .inl rfl⟩
  rename_i hfirst
  split
  · exact ⟨_, rfl, .inr (.inl rfl)⟩
  rename_i hversion
  cases hkey : (socket.request.parts.headers.get secWebSocketKey).filter validKey with
  | none => exact ⟨_, rfl, .inl rfl⟩
  | some key =>
    dsimp only
    split
    · exact ⟨_, rfl, .inr (.inr rfl)⟩
    · rename_i horigin
      simp only [not_or, not_not, Bool.not_eq_false] at hfirst
      exact absurd
        { method := hfirst.1
          version := hfirst.2.1
          connection := hfirst.2.2.1
          upgrade := hfirst.2.2.2
          secWebSocketVersion := not_not.mp hversion
          secWebSocketKey := hkey
          origin := Bool.eq_false_iff.mpr horigin } (h key)

theorem values_switching (accept : AcceptKey) (key : HeaderValue) (protocol : Option Text) :
    (switching accept key protocol).values WebSockets.connection = [str "Upgrade"] ∧
      (switching accept key protocol).values WebSockets.upgrade = [str "websocket"] ∧
      (switching accept key protocol).values secWebSocketAccept = [accept.derive key] ∧
      (switching accept key protocol).values secWebSocketProtocol = protocol.toList := by
  have hdistinct : [WebSockets.connection, WebSockets.upgrade, secWebSocketAccept,
      secWebSocketProtocol].Nodup := by decide +kernel
  simp only [List.nodup_cons, List.mem_cons, List.not_mem_nil, or_false, not_or] at hdistinct
  obtain ⟨⟨h₁, h₂, h₃⟩, ⟨h₄, h₅⟩, h₆, -⟩ := hdistinct
  cases protocol with
  | none =>
    simp [switching, HeaderMap.empty, h₁, h₂, h₄, Ne.symm h₁, Ne.symm h₂, Ne.symm h₃,
      Ne.symm h₄, Ne.symm h₅, Ne.symm h₆]
  | some protocol =>
    simp [switching, HeaderMap.empty, h₁, h₂, h₃, h₄, h₅, h₆, Ne.symm h₁, Ne.symm h₂, Ne.symm h₃,
      Ne.symm h₄, Ne.symm h₅, Ne.symm h₆]

/-- The first subprotocol of the server that the client has offered. -/
theorem chosenProtocol_of_sends {client : Client} (h : client.Sends socket.request) :
    socket.chosenProtocol = socket.protocols.find? client.protocols.contains := by
  rw [chosenProtocol, offered, h.secWebSocketProtocol.items, Client.protocols]

/-- A client is satisfied with the response to its key. -/
theorem establishes_switching {client : Client} (h : client.Sends socket.request)
    (accept : AcceptKey) :
    client.establishes accept
        { status := 101
          headers := switching accept client.key socket.chosenProtocol
          body := .full (some .new) } =
      some socket.chosenProtocol := by
  obtain ⟨hconnection, hupgrade, haccept, hprotocol⟩ :=
    values_switching accept client.key socket.chosenProtocol
  have hwebsocket : eqIgnoreCase (str "websocket") (str "websocket") = true := by decide +kernel
  have htoken : contains (switching accept client.key socket.chosenProtocol) WebSockets.connection
      (str "upgrade") = true := by
    have hitem : ([str "Upgrade"].filterMap HeaderValue.toStr |>.flatMap (·.splitOn comma)).any
        (fun part => eqIgnoreCase (trim part) (str "upgrade")) = true := by decide +kernel
    rw [contains, HeaderMap.items, HeaderMap.getAll, hconnection, hitem]
  have htrim : trim (accept.derive client.key) = accept.derive client.key := by
    apply trim_of_not_isSpace
    intro byte hbyte
    have hall : ∀ byte : UInt8, 0x20 < byte ∧ byte < 0x7F → isSpace byte = false :=
      forall_byte (by decide +kernel)
    exact hall byte (accept.derive_visible _ byte hbyte)
  unfold Client.establishes
  rw [if_pos]
  · rw [HeaderMap.get, hprotocol]
    cases hchosen : socket.chosenProtocol with
    | none => rfl
    | some protocol =>
      -- what is chosen has been offered
      have hoffered := List.find?_some ((chosenProtocol_of_sends h).symm.trans hchosen)
      simp only [Option.toList_some, List.head?_cons]
      rw [if_pos hoffered]
  · refine ⟨rfl, ?_, htoken, ?_⟩
    · rw [HeaderMap.get, hupgrade, List.head?_cons, Option.any_some, hwebsocket]
    · rw [HeaderMap.get, haccept, List.head?_cons, Option.map_some, htrim]

/-- Whether a client may open a session: it belongs to no page, or to one of a listed origin. -/
def Permits (socket : WebSocketUpgrade P) (origin : Option HeaderValue) : Prop :=
  socket.origins = [] ∨ ∀ value ∈ origin, value ∈ socket.origins

theorem refuses_eq_false_iff {client : Client} (origins : List Text) :
    refuses origins client.origin = false ↔
      origins = [] ∨ ∀ value ∈ client.origin, value ∈ origins := by
  cases horigin : client.origin with
  | none => simp [refuses]
  | some value =>
    have hvisible := client.toStr_origin value (by rw [horigin]; rfl)
    simp [refuses, hvisible, or_iff_not_imp_left]

/-- A client that is permitted is acceptable. -/
theorem acceptable_of_sends {client : Client} (h : client.Sends socket.request)
    (hpermits : socket.Permits client.origin) : socket.Acceptable client.key where
  method := h.method
  version := h.version
  connection := contains_of_hasToken h.connection
  upgrade := contains_of_hasToken h.upgrade
  secWebSocketVersion := by
    have hversion : ((some (str "13")).bind HeaderValue.toStr).map trim = some (str "13") := by
      decide +kernel
    rw [h.secWebSocketVersion, hversion]
  secWebSocketKey := by
    rw [h.secWebSocketKey, Option.filter_some, if_pos (validKey_key client)]
  origin := by
    rw [h.origin]
    exact (refuses_eq_false_iff _).mpr hpermits

/-- **Client and server agree.** For every configuration and every client that follows the protocol:
`on_upgrade` does not panic, and the client regards the connection as open exactly if the task of a
session has been spawned, with the first subprotocol of the server that the client offered. This
happens if and only if the origin of the client may open one, and the session holds the slot of the
connection. -/
theorem handshake_agrees (toVec : Json → Bytes) (accept : AcceptKey) {client : Client}
    (h : client.Sends socket.request) :
    ∃ response session, socket.onUpgrade toVec accept = some (response, session) ∧
      client.establishes accept response =
        session.map (fun _ => socket.protocols.find? client.protocols.contains) ∧
      (session.isSome = true ↔ socket.Permits client.origin) ∧
      ∀ spawned ∈ session, spawned.permit = socket.request.permit := by
  by_cases hpermits : socket.Permits client.origin
  -- all that a client sends is acceptable, once the origin may open the session
  · refine ⟨_, _, onUpgrade_of_acceptable toVec accept (acceptable_of_sends h hpermits), ?_, ?_, ?_⟩
    · rw [establishes_switching h, chosenProtocol_of_sends h]
      rfl
    · exact iff_of_true rfl hpermits
    · rintro spawned hspawned
      cases hspawned
      rfl
  -- whichever key it is, the origin is refused
  · have hrefused : ∀ key, ¬ socket.Acceptable key := by
      intro key hacceptable
      have horigin := hacceptable.origin
      rw [h.origin] at horigin
      exact hpermits ((refuses_eq_false_iff _).mp horigin)
    obtain ⟨response, hupgrade, hstatus⟩ := onUpgrade_of_not_acceptable toVec accept hrefused
    refine ⟨response, none, hupgrade, ?_, ?_, nofun⟩
    · rw [Client.establishes, if_neg]
      · rfl
      · rintro ⟨hswitching, -⟩
        omega
    · exact iff_of_false Bool.false_ne_true hpermits

/-- The accept key for the nonce `the sample nonce`. -/
def sampleAccept : AcceptKey where
  derive := fun _ => str "s3pPLMBiTxaQ9kYGzzhZRbK+xOo="
  derive_visible := fun _ => by decide +kernel

/-- A page that offers two subprotocols. -/
def sampleClient : Client where
  nonce := str "the sample nonce"
  offers := [[⟨[], str "soap", []⟩, ⟨[0x20], str "chat", []⟩]]
  origin := some (str "https://app.example")
  length_nonce := by decide +kernel
  toStr_origin := by decide +kernel

def sampleHeaders : HeaderMap :=
  ((((((HeaderMap.empty.insert WebSockets.connection (str "keep-alive, Upgrade")).insert
    WebSockets.upgrade (str "WebSocket")).insert secWebSocketVersion (str "13")).insert
    secWebSocketKey (str "dGhlIHNhbXBsZSBub25jZQ==")).insert
    secWebSocketProtocol (str "soap, chat")).insert .origin (str "https://app.example"))

def sampleUpgrade : WebSocketUpgrade ℕ where
  request :=
    { parts := { method := .get, path := str "/ws", query := none, headers := sampleHeaders }
      version := .http11
      permit := some 0 }
  protocols := [str "chat", str "soap"]
  origins := [str "https://app.example"]
  maxMessageSize := defaultMaxMessage
  idleTimeout := some 60000
  validateProtocol_of_mem := by decide +kernel

theorem handshake_agrees_sample : sampleClient.Sends sampleUpgrade.request ∧
    ∃ response session, sampleUpgrade.onUpgrade (fun _ => .new) sampleAccept = some (response, session) ∧
      sampleClient.establishes sampleAccept response = session.map fun _ => some (str "chat") := by
  have hsends : sampleClient.Sends sampleUpgrade.request :=
    { method := rfl
      version := rfl
      connection := ⟨[[⟨[], str "keep-alive", []⟩, ⟨[0x20], str "Upgrade", []⟩]],
        ⟨by decide +kernel, by decide +kernel, by decide +kernel⟩, ⟨[0x20], str "Upgrade", []⟩,
          by decide +kernel, by decide +kernel⟩
      upgrade := ⟨[[⟨[], str "WebSocket", []⟩]],
        ⟨by decide +kernel, by decide +kernel, by decide +kernel⟩, ⟨[], str "WebSocket", []⟩,
          by decide +kernel, by decide +kernel⟩
      secWebSocketVersion := by decide +kernel
      secWebSocketKey := by decide +kernel
      secWebSocketProtocol := ⟨by decide +kernel, by decide +kernel, by decide +kernel⟩
      origin := by decide +kernel }
  obtain ⟨response, session, hupgrade, hagree, -⟩ :=
    handshake_agrees (fun _ => .new) sampleAccept hsends
  have hchosen : sampleUpgrade.protocols.find? sampleClient.protocols.contains =
      some (str "chat") := by decide +kernel
  rw [hchosen] at hagree
  exact ⟨hsends, response, session, hupgrade, hagree⟩

end WebSocketUpgrade

/-! ## Sessions -/

/-- `CloseFrame` -/
structure CloseFrame where
  code : ℕ
  reason : Text
  deriving DecidableEq

/-- `Message` -/
inductive Message where
  | text (text : Text)
  | binary (bytes : Text)
  | ping (bytes : Text)
  | pong (bytes : Text)
  | close (frame : Option CloseFrame)

/-- `tungstenite::Error`, as far as `WebSocketError` tells errors apart -/
inductive WireError where
  | connectionClosed
  | alreadyClosed
  | io (timedOut : Bool)
  | other
  deriving DecidableEq

/-- `WebSocketError::is_timeout` -/
def WireError.isTimeout : WireError → Bool
  | .io timedOut => timedOut
  | _ => false

/-- `WebSocketError::is_closed` -/
def WireError.isClosed : WireError → Bool
  | .connectionClosed | .alreadyClosed => true
  | _ => false

/-- The wire protocol over a transport: after how long an operation is done, with what it comes to
    and what is left of the transport, or `none` for one that never is. -/
structure Wire (T : Type) where
  next : T → Option (ℕ × Option (Except WireError Message) × T)
  send : T → Message → Option (ℕ × Except WireError Unit × T)
  close : T → Option CloseFrame → Option (ℕ × Except WireError Unit × T)
  /-- what a `next` leaves that is dropped after some time -/
  interrupt : T → ℕ → T

/-- `WebSocket` -/
structure WebSocket (T P : Type) where
  inner : Option T
  idle : Option ℕ
  permit : Option P

/-- How long `recv` tries to send a close frame. -/
def closeGrace : ℕ := 1000

namespace WebSocket

variable {T P : Type} (wire : Wire T)

/-- `recv`: after how long it returns, if it does, and what. -/
def recv (socket : WebSocket T P) :
    Option (ℕ × Option (Except WireError Message) × WebSocket T P) :=
  match socket.inner with
  | none => some (0, none, socket)
  | some stream =>
    match socket.idle with
    | some idle =>
      match (wire.next stream).filter fun next => next.1 ≤ idle with
      | some (took, next, stream) => some (took, next, { socket with inner := some stream })
      | none =>
        -- the peer is told, but cannot hold this up
        let close := wire.close (wire.interrupt stream idle) (some ⟨1001, str "idle timeout"⟩)
        let took := min closeGrace ((close.map (·.1)).getD closeGrace)
        some (idle + took, some (.error (.io true)), { socket with inner := none, permit := none })
    | none =>
      (wire.next stream).map fun next => (next.1, next.2.1, { socket with inner := some next.2.2 })

/-- `send` -/
def send (socket : WebSocket T P) (message : Message) :
    Option (ℕ × Except WireError Unit × WebSocket T P) :=
  match socket.inner with
  | none => some (0, .error .alreadyClosed, socket)
  | some stream =>
    (wire.send stream message).map fun sent =>
      (sent.1, sent.2.1, { socket with inner := some sent.2.2 })

/-- `close` -/
def close (socket : WebSocket T P) (frame : Option CloseFrame) :
    Option (ℕ × Except WireError Unit × WebSocket T P) :=
  match socket.inner with
  | none => some (0, .error .alreadyClosed, socket)
  | some stream =>
    (wire.close stream frame).map fun closed =>
      (closed.1, closed.2.1, { socket with inner := some closed.2.2 })

end WebSocket

/-- What a handler can call. -/
inductive Call where
  | recv
  | send (message : Message)
  | close (frame : Option CloseFrame)

/-- What a call returns. -/
inductive Reply where
  | received (next : Option (Except WireError Message))
  | done (result : Except WireError Unit)

/-- What every call returns once the session is over. -/
def Call.closed : Call → Reply
  | .recv => .received none
  | .send _ | .close _ => .done (.error .alreadyClosed)

/-- A handler's session: its socket, the time, and what its calls have returned. -/
structure Session (T P : Type) where
  socket : WebSocket T P
  clock : ℕ
  replies : List Reply

namespace Session

variable {T P : Type} (wire : Wire T)

/-- What a call does to a session, if it returns. -/
def call (s : Session T P) : Call → Option (Session T P)
  | .recv => (s.socket.recv wire).map fun (took, next, socket) =>
      { socket, clock := s.clock + took, replies := s.replies ++ [.received next] }
  | .send message => (s.socket.send wire message).map fun (took, result, socket) =>
      { socket, clock := s.clock + took, replies := s.replies ++ [.done result] }
  | .close frame => (s.socket.close wire frame).map fun (took, result, socket) =>
      { socket, clock := s.clock + took, replies := s.replies ++ [.done result] }

/-- A session as its handler gets it. -/
def machine (stream : T) (idle : Option ℕ) (permit : Option P) : Machine (Session T P) Call where
  init := { socket := { inner := some stream, idle, permit }, clock := 0, replies := [] }
  step := call wire

/-- What `recv` reports when the idle timeout is over. -/
def timedOut : Reply := .received (some (.error (.io true)))

variable {wire} {s s' : Session T P} {c : Call}

/-- What a call does: it uses the transport, or it drops it, or there is none any more. -/
inductive Step (s : Session T P) : Call → Session T P → Prop where
  | used (c : Call) (stream : T) (took : ℕ) (reply : Reply) (h : s.socket.inner.isSome = true)
      (htook : c = .recv → ∀ idle ∈ s.socket.idle, took ≤ idle) :
      s.Step c
        { socket := { s.socket with inner := some stream }
          clock := s.clock + took
          replies := s.replies ++ [reply] }
  | dropped (idle took : ℕ) (h : s.socket.inner.isSome = true) (hidle : s.socket.idle = some idle)
      (htook : took ≤ closeGrace) :
      s.Step .recv
        { socket := { s.socket with inner := none, permit := none }
          clock := s.clock + (idle + took)
          replies := s.replies ++ [timedOut] }
  | ended (c : Call) (h : s.socket.inner = none) :
      s.Step c { s with replies := s.replies ++ [c.closed] }

theorem call_of_ended (wire : Wire T) (c : Call) (h : s.socket.inner = none) :
    s.call wire c = some { s with replies := s.replies ++ [c.closed] } := by
  cases c with
  | recv => simp [call, WebSocket.recv, h, Call.closed]
  | send message => simp [call, WebSocket.send, h, Call.closed]
  | close frame => simp [call, WebSocket.close, h, Call.closed]

theorem step_of_call (h : s.call wire c = some s') : s.Step c s' := by
  obtain ⟨⟨inner, idle, permit⟩, clock, replies⟩ := s
  cases inner with
  | none =>
    rw [call_of_ended wire c rfl] at h
    cases h
    exact .ended c rfl
  | some stream =>
    cases c with
    | recv =>
      rw [call, WebSocket.recv] at h
      dsimp only at h
      cases idle with
      | none =>
        dsimp only at h
        rw [Option.map_map, Option.map_eq_some_iff] at h
        obtain ⟨next, -, rfl⟩ := h
        exact .used .recv _ _ _ rfl fun _ => nofun
      | some idle =>
        dsimp only at h
        cases hnext : (wire.next stream).filter fun next => next.1 ≤ idle with
        | none =>
          rw [hnext] at h
          cases h
          exact .dropped idle _ rfl rfl (min_le_left _ _)
        | some next =>
          rw [hnext] at h
          cases h
          -- it was ready before the timeout
          obtain ⟨-, hready⟩ := Option.filter_eq_some_iff.mp hnext
          refine .used .recv _ _ _ rfl ?_
          rintro _ _ ⟨⟩
          exact of_decide_eq_true hready
    | send message =>
      rw [call, WebSocket.send] at h
      dsimp only at h
      rw [Option.map_map, Option.map_eq_some_iff] at h
      obtain ⟨sent, -, rfl⟩ := h
      exact .used _ _ _ _ rfl nofun
    | close frame =>
      rw [call, WebSocket.close] at h
      dsimp only at h
      rw [Option.map_map, Option.map_eq_some_iff] at h
      obtain ⟨closed, -, rfl⟩ := h
      exact .used _ _ _ _ rfl nofun

/-- With an idle timeout, `recv` returns. -/
theorem exists_recv (wire : Wire T) {idle : ℕ} (h : s.socket.idle = some idle) :
    ∃ s', s.call wire .recv = some s' := by
  obtain ⟨⟨inner, _, permit⟩, clock, replies⟩ := s
  cases h
  cases inner with
  | none => exact ⟨_, rfl⟩
  | some stream =>
    rw [call, WebSocket.recv]
    dsimp only
    cases (wire.next stream).filter fun next => next.1 ≤ idle with
    | none => exact ⟨_, rfl⟩
    | some next => exact ⟨_, rfl⟩

/-- What calls keep of a session. -/
structure Sound (idle : Option ℕ) (permit : Option P) (s : Session T P) : Prop where
  idle_eq : s.socket.idle = idle
  permit_eq : s.socket.permit = if s.socket.inner.isSome then permit else none
  timedOut_mem : s.socket.inner = none → idle.isSome = true ∧ timedOut ∈ s.replies

theorem Step.sound {idle : Option ℕ} {permit : Option P} (h : s.Step c s') (hs : s.Sound idle permit) :
    s'.Sound idle permit := by
  cases h with
  | used _ stream took reply hopen _ =>
    refine ⟨hs.idle_eq, ?_, nofun⟩
    have hpermit := hs.permit_eq
    rw [if_pos hopen] at hpermit
    exact hpermit
  | dropped idle' took _ hidle _ =>
    refine ⟨hs.idle_eq, rfl, fun _ => ⟨?_, ?_⟩⟩
    · rw [← hs.idle_eq, hidle]
      rfl
    · exact List.mem_append_right _ (List.mem_singleton_self _)
  | ended _ hover =>
    refine ⟨hs.idle_eq, hs.permit_eq, fun _ => ?_⟩
    obtain ⟨hidle, hmem⟩ := hs.timedOut_mem hover
    exact ⟨hidle, List.mem_append_left _ hmem⟩

theorem sound_of_run {stream : T} {idle : Option ℕ} {permit : Option P} {calls : List Call}
    (h : (machine wire stream idle permit).run calls = some s) : s.Sound idle permit := by
  refine Machine.runFrom_induction (P := fun _ s => s.Sound idle permit) ⟨rfl, rfl, nofun⟩ ?_ h
  intro _ s₁ c s₂ _ hs hstep
  exact (step_of_call hstep).sound hs

/-- Once the session is over, calls return at once and nothing changes any more. -/
theorem runFrom_of_ended {stream : T} {idle : Option ℕ} {permit : Option P}
    (h : s.socket.inner = none) (more : List Call) :
    (machine wire stream idle permit).runFrom s more =
      some { s with replies := s.replies ++ more.map Call.closed } := by
  induction more generalizing s with
  | nil => simp
  | cons c more ih =>
    have hcall : (machine wire stream idle permit).step s c =
        some { s with replies := s.replies ++ [c.closed] } := call_of_ended wire c h
    have hlater := @ih { s with replies := s.replies ++ [c.closed] } h
    rw [Machine.runFrom_cons, hcall, Option.bind_some, hlater]
    simp

/-- **The transport and the slot of a session go together.** After any calls of a handler, over any
wire protocol: the slot of the connection is held as long as the transport is there; the transport is
dropped by an idle timeout only, which the handler has been told of, and from then on every call
fails at once, for all calls that may follow; and with an idle timeout every `recv` returns, at most
the grace period late. -/
theorem session_exact {stream : T} {idle : Option ℕ} {permit : Option P} {calls : List Call}
    (h : (machine wire stream idle permit).run calls = some s) :
    s.socket.permit = (if s.socket.inner.isSome then permit else none) ∧
      (s.socket.inner = none → idle.isSome = true ∧ timedOut ∈ s.replies ∧
        ∀ more, (machine wire stream idle permit).run (calls ++ more) =
          some { s with replies := s.replies ++ more.map Call.closed }) ∧
      ∀ limit ∈ idle, ∃ s', (machine wire stream idle permit).run (calls ++ [.recv]) = some s' ∧
        s'.clock ≤ s.clock + limit + closeGrace := by
  have hsound := sound_of_run h
  -- what follows is a run from here
  have hrest : ∀ more, (machine wire stream idle permit).run (calls ++ more) =
      (machine wire stream idle permit).runFrom s more := by
    intro more
    rw [Machine.run, Machine.runFrom_append]
    rw [Machine.run] at h
    rw [h, Option.bind_some]
  refine ⟨hsound.permit_eq, ?_, ?_⟩
  · intro hover
    obtain ⟨hidle, hmem⟩ := hsound.timedOut_mem hover
    refine ⟨hidle, hmem, ?_⟩
    intro more
    rw [hrest, runFrom_of_ended hover]
  · intro limit hlimit
    have hidle : s.socket.idle = some limit := hsound.idle_eq.trans hlimit
    obtain ⟨s', hrecv⟩ := exists_recv wire hidle
    refine ⟨s', ?_, ?_⟩
    · rw [hrest, Machine.runFrom_cons]
      show (s.call wire .recv).bind _ = some s'
      rw [hrecv]
      rfl
    -- a message or the end of the stream in time, or the timeout with its grace
    · cases step_of_call hrecv with
      | used _ stream took reply _ htook =>
        have hle := htook rfl limit hidle
        show s.clock + took ≤ _
        omega
      | dropped idle' took _ hidle' htook =>
        rw [hidle] at hidle'
        cases hidle'
        show s.clock + (limit + took) ≤ _
        omega
      | ended => exact (Nat.le_add_right _ _).trans (Nat.le_add_right _ _)

/-- A peer that sends so many messages, and neither reads nor writes after that. -/
def silentPeer : Wire ℕ where
  next := fun left => if left = 0 then none else some (5, some (.ok (.text [])), left - 1)
  send := fun _ _ => none
  close := fun _ _ => none
  interrupt := fun left _ => left

theorem session_exact_silent :
    ∃ s, (machine silentPeer 1 (some 10) (some 0)).run [.recv, .recv] = some s ∧
      s.socket.permit = none ∧ s.clock = 1015 ∧
      (machine silentPeer 1 (some 10) (some 0)).run ([.recv, .recv] ++ [.send (.text []), .recv]) =
        some { s with replies := s.replies ++ [.done (.error .alreadyClosed), .received none] } := by
  obtain ⟨s, hrun⟩ : ∃ s, (machine silentPeer 1 (some 10) (some 0)).run [.recv, .recv] = some s :=
    ⟨_, rfl⟩
  have hinner : s.socket.inner = none ∧ s.clock = 1015 := by
    cases hrun
    exact ⟨rfl, rfl⟩
  obtain ⟨hpermit, hover, -⟩ := session_exact hrun
  rw [hinner.1] at hpermit
  exact ⟨s, hrun, hpermit, hinner.2, (hover hinner.1).2.2 _⟩

end Session

end OasRs.WebSockets
