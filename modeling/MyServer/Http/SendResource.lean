import MyServer.Http.PathInfo
import MyServer.Http.PutFile
import MyServer.Http.RequestParse
import MyServer.Lib.Safety

/-!
# How a request is answered

`Http::sendHTTPResource` (http.cpp) and what it can end in. An error is answered with a page that is a resource of its
own and can fail in its turn.
-/

open MyServer.Files MyServer.Security
open MyServer.RequestHeader (HttpRequestHeader)
open MyServer.ResponseHeader (HttpResponseHeader)

namespace MyServer.ResponseHeader.HttpResponseHeader

/-- `other.get (name)` with its value assigned, or `other.put`. -/
def put (response : HttpResponseHeader) (name value : Str) : HttpResponseHeader :=
  { response with other := fun n => if n = name then some value else response.other n }

def setValue (response : HttpResponseHeader) (name value : Str) : HttpResponseHeader :=
  if caseEq name (ascii "Ver") then { response with ver := cstr value }
  else if caseEq name (ascii "Content-length") then { response with contentLength := cstr value }
  else response.put (name.map toLower) (cstr value)

def remove (response : HttpResponseHeader) (name : Str) : HttpResponseHeader :=
  { response with other := fun n => if n = name then none else response.other n }

end MyServer.ResponseHeader.HttpResponseHeader

namespace MyServer.Http

def permissionDelete : Mask := 8

def RET_OK : Int := 0
def RET_FAILURE : Int := 1

/-! ## The errors -/

/-- `HttpErrors::load`. -/
def messagesMap : List (Nat × String) :=
  [(100, "Continue"), (101, "Switching Protocols"), (102, "Processing"),
    (200, "OK"), (201, "Created"), (202, "Accepted"), (203, "Non-Authoritative Information"), (204, "No Content"),
    (205, "Reset Content"), (206, "Partial Content"), (207, "Multi-Status"),
    (300, "Multiple Choices"), (301, "Moved Permanently"), (302, "Found"), (303, "See Other"), (304, "Not Modified"),
    (305, "Use proxy"), (306, "Switch proxy"), (307, "Temporary redirect"),
    (400, "Bad Request"), (401, "Unauthorized"), (402, "Payment required"), (403, "Forbidden"), (404, "Not Found"),
    (405, "Method Not Allowed"), (406, "Not Acceptable"), (407, "Proxy Authentication Required"),
    (408, "Request timeout"), (409, "Conflict"), (411, "Length Required"), (412, "Precondition Failed"),
    (413, "Request Entity Too Large"), (414, "Request URI Too Long"), (415, "Unsupported Media Type"),
    (416, "Requested Range Not Satisfiable"), (417, "Expectation Failed"), (422, "Unprocessable Entity"),
    (423, "Locked"), (424, "Failed Dependency"), (425, "Unordered Collection"), (426, "Upgrade Required"),
    (500, "Internal Server Error"), (501, "Not Implemented"), (502, "Bad Gateway"), (503, "Service Unavailable"),
    (504, "Gateway Timeout"), (505, "HTTP Version Not Supported"), (506, "Variant Also Negotiates"),
    (507, "Insufficient Storage"), (509, "Bandwidth Limit Exceeded"), (510, "Not Extended")]

def getErrorMessage (statusCode : Nat) : Str := (messagesMap.lookup statusCode).elim [] ascii

def getErrorPage (statusCode : Nat) : Str := ascii "/errors/" ++ decimal statusCode ++ ascii ".html"

def hardHTML : Str :=
  ascii ("<?xml version=\"1.0\" encoding=\"UTF-8\"?>\n" ++
    "<!DOCTYPE html PUBLIC \"-//W3C//DTD XHTML 1.1//EN\"\n" ++
    "\"http://www.w3.org/TR/xhtml11/DTD/xhtml11.dtd\">\n" ++
    "<html xmlns=\"http://www.w3.org/1999/xhtml\" xml:lang=\"en\">\n" ++
    "<head>\n" ++
    "<title>500 Internal Server Error</title>\n" ++
    "<meta http-equiv=\"content-type\" content=\"text/html;charset=UTF-8\" />\n" ++
    "</head>\n" ++
    "<body style=\"color: #666699;\">\n" ++
    "<br />\n" ++
    "<h1 style=\"text-align: center;\">\n" ++
    "Error 500\n" ++
    "<br /><br />\n" ++
    "Internal Server Error\n" ++
    "</h1>\n" ++
    "</body>\n" ++
    "</html>\r\n")

/-! ## The thread -/

/-- What of a `MimeRecord` a manager is chosen by and called with. -/
structure MimeRecord where
  mimeType : Str
  cmdName : Str
  cgiManager : Str
  selfExecuted : Bool

/-- One thing that goes to the client, or that happens to a file. -/
inductive Sent
  | header (response : HttpResponseHeader)
  | redirect (newURL : Str) (keepAlive : Bool)
  | notModified (keepAlive : Bool)
  | unauthorized (connection realm : Str) (scheme : AuthScheme)
  | hardError
  | options (connection methods : Str)
  | trace (connection request : Str)
  | body (bytes : Str)
  | deleted (path : Str)
  | stored (path content : Str)

/-- It begins an answer. -/
def Sent.isHead : Sent → Bool
  | body _ | deleted _ | stored _ _ => false
  | _ => true

/-- A manager does such things by itself. -/
def Sent.isOwn : Sent → Bool
  | header _ | body _ | deleted _ | stored _ _ => true
  | _ => false

def Sent.isChallenge : Sent → Bool
  | unauthorized _ _ _ => true
  | _ => false

/-- What of `HttpThreadContext` and of its connection changes on the way to the answer. -/
structure Thread where
  lastError : Nat
  headerSent : Bool
  onlyHeader : Bool
  response : HttpResponseHeader
  permissions : Mask
  /-- `none` is any other number. -/
  authScheme : Option AuthScheme
  st : SecurityToken
  filenamePath : Str
  pathInfo : Str
  mime : Option MimeRecord
  nTries : Nat
  sent : List Sent

namespace Thread

def put (t : Thread) (part : Sent) : Thread := { t with sent := t.sent ++ [part] }

def status (t : Thread) (httpStatus : Nat) : Thread := { t with response := { t.response with httpStatus } }

def errorType (t : Thread) (errorType : Str) : Thread := { t with response := { t.response with errorType } }

def setValue (t : Thread) (name : String) (value : Str) : Thread :=
  { t with response := t.response.setValue (ascii name) value }

def keepAlive (t : Thread) (asked : Bool) : Thread :=
  if asked then t.setValue "connection" (ascii "keep-alive") else t

def sendHeader (t : Thread) : Thread :=
  if t.headerSent then t else { t.put (.header t.response) with headerSent := true }

/-- Nothing is written for nothing. -/
def sendBody (t : Thread) (bytes : Str) : Thread := if bytes = [] then t else t.put (.body bytes)

def useMessagesFiles (t : Thread) : Bool :=
  (t.st.getData (ascii "http.use_error_file") confRings).all fun value => caseEq value (ascii "YES")

def plainError (t : Thread) (ID : Nat) : Thread × Int :=
  let noBody := (t.st.getData (ascii "http.error_body") confRings).any fun value => caseEq value (ascii "NO")
  let errorBodyMessage := if noBody then [] else decimal ID ++ ascii " - " ++ getErrorMessage ID ++ crlf
  let t := { t with response := { t.response with contentLength := decimal errorBodyMessage.length } }
  (t.sendHeader.sendBody errorBodyMessage, RET_OK)

def sendHTTPhardError500 (t : Thread) : Thread × Int :=
  let t := (t.status 500).put .hardError
  (if t.onlyHeader then t else t.put (.body hardHTML), RET_FAILURE)

end Thread

theorem setValue_status (t : Thread) (name : String) (value : Str) :
    (t.setValue name value).response.httpStatus = t.response.httpStatus := by
  unfold Thread.setValue ResponseHeader.HttpResponseHeader.setValue
  split_ifs <;> rfl

theorem keepAlive_eq (t : Thread) (asked : Bool) :
    ∃ response, response.httpStatus = t.response.httpStatus ∧ t.keepAlive asked = { t with response } := by
  unfold Thread.keepAlive
  split_ifs
  · exact ⟨_, setValue_status t "connection" _, rfl⟩
  · exact ⟨t.response, rfl, rfl⟩

def isKeepAlive (request : HttpRequestHeader) : Bool :=
  (request.other (ascii "connection")).any fun value => caseEq value (ascii "keep-alive") || caseEq value (ascii "TE")

/-! ## The managers -/

/-- The call that a manager ends with. The result of `raiseHTTPError` is not always what it returns. -/
inductive Finish
  | done (ret : Int)
  | raiseHTTPError (ID : Nat) (ret : Option Int)
  | sendAuth
  | sendHTTPRedirect (newURL : Str)
  | sendHTTPNonModified

/-- What a manager leaves alone, and that it has its header sent through `sendHeader`. -/
structure Keeps (t t' : Thread) : Prop where
  lastError : t'.lastError = t.lastError
  nTries : t'.nTries = t.nTries
  sent : ∃ parts, t'.sent = t.sent ++ parts ∧ (∀ part ∈ parts, part.isOwn) ∧
    t.headerSent.toNat + parts.countP Sent.isHead = t'.headerSent.toNat

/-- An `HttpDataHandler`, up to its last call. -/
structure Manager where
  send : Thread → Str → Option Str → Bool → Bool → Thread × Finish
  keeps : ∀ t path exec execute onlyHeader, Keeps t (send t path exec execute onlyHeader).1
  error_ne : ∀ t path exec execute onlyHeader ID ret,
    (send t path exec execute onlyHeader).2 = .raiseHTTPError ID ret → ID ≠ 0

/-- It ends by itself when it has sent its header, and only then. -/
def Manager.Clean (manager : Manager) : Prop :=
  ∀ t path exec execute onlyHeader t' call, t.headerSent = false →
    manager.send t path exec execute onlyHeader = (t', call) → (t'.headerSent = true ↔ ∃ ret, call = .done ret)

/-! ## The server -/

/-- The server as one request finds it. -/
structure Site where
  env : SecurityEnv
  sys : PathSystem MimeRecord
  c : HttpConnection
  host : Vhost
  hasHost : c.td.host = some host
  request : HttpRequestHeader
  protocolPrefix : Str
  port : Nat
  version : Str
  /-- The values under `http.default_file`. -/
  defaultFile : Option (List Str)
  getHttpManager : Str → Option Manager
  /-- The methods of `WebDAV` and the dynamic commands. -/
  getHttpCommand : Str → Option Manager
  /-- The names of the dynamic commands. -/
  commands : List Str
  /-- The header as it came, in `td->buffer`. -/
  input : Str
  /-- The token and PATH_INFO that a call of `preprocessHttpRequest` for a resource leaves when it fails. -/
  failed : Thread → Str → SecurityToken × Str
  /-- What is on the stack of `optionsHTTPRESOURCE` and `traceHTTPRESOURCE` for the permissions. -/
  stack : Mask

def Site.Uses (site : Site) (manager : Manager) : Prop :=
  (∃ name, site.getHttpManager name = some manager) ∨ ∃ name, site.getHttpCommand name = some manager

/-- `HttpHeaders::buildDefaultHTTPResponseHeader`, with the version of the request. -/
def Site.response (site : Site) : HttpResponseHeader :=
  let empty : HttpResponseHeader := ⟨200, [], [], [], fun _ => none⟩
  let response := (empty.setValue (ascii "content-type") (ascii "text/html")).setValue (ascii "Server")
    (ascii "GNU MyServer " ++ site.version)
  { response with ver := site.request.ver }

namespace Site

variable (site : Site)

def header (name : String) : Option Str := site.request.other (ascii name)

def keepAlive : Bool := (site.header "connection").any fun value => caseEq value (ascii "keep-alive")

/-- PATH_INFO and the options, put behind a URL again. -/
def behind (t : Thread) : Str :=
  (if t.pathInfo = [] then [] else slash :: t.pathInfo) ++
    if site.request.uriOpts = [] then [] else ch '?' :: site.request.uriOpts

def sendHTTPRedirect (newURL : Str) (t : Thread) : Thread × Int :=
  ((t.status 302).put (.redirect newURL site.keepAlive), RET_OK)

def sendHTTPNonModified (t : Thread) : Thread × Int := ((t.status 304).put (.notModified site.keepAlive), RET_OK)

/-- `Http::preprocessHttpRequest`, with the code where it is not 200. -/
def preprocess (t : Thread) (resource : Str) (yetmapped systemrequest : Bool) : Thread × Option Nat :=
  let t := t.keepAlive (isKeepAlive site.request)
  match preprocessHttpRequest site.env site.sys site.c resource yetmapped t.permissions t.st systemrequest with
  | .error code => ({ t with st := (site.failed t resource).1, pathInfo := (site.failed t resource).2 }, some code)
  | .ok (perms, out) =>
    ({ t with
      permissions := perms.permissions
      st := perms.st
      authScheme := some perms.authScheme
      filenamePath := out.filenamePath
      pathInfo := out.pathInfo
      mime := out.mime }, none)

/-! ### Errors -/

def errorURL (t : Thread) (defErrorFile : Str) : Str :=
  let hostStr := cstr ((site.header "host").getD [])
  let nURL := site.protocolPrefix ++ hostStr ++ if ch ':' ∈ hostStr then [] else ch ':' :: decimal site.port
  nURL ++ (if nURL.getLast? = some slash then [] else [slash]) ++ defErrorFile ++ site.behind t

def errorPage (ID : Nat) : Str := getVhostSys site.c.td ++ slash :: getErrorPage ID

/-- The answer to an error. `page` sends the resource with the error's page. -/
def raiseHTTPError (page : Str → Thread → Option (Thread × Int)) (ID : Nat) (t : Thread) : Option (Thread × Int) :=
  if t.lastError ≠ 0 then some t.sendHTTPhardError500
  else
    let t := ({ t with lastError := ID }.keepAlive site.keepAlive).status ID
    match t.st.getData (ascii "http.error.file." ++ decimal ID) securityRings with
    | some defErrorFile => some (site.sendHTTPRedirect (site.errorURL t defErrorFile) t)
    | none =>
      if t.useMessagesFiles then
        let t := t.errorType (getErrorMessage ID)
        if nodeExists site.sys.fs (site.errorPage ID) then page (site.errorPage ID) t else some (t.plainError ID)
      else some (t.plainError ID)

/-! ### Ends -/

section

variable (raise : Nat → Thread → Option (Thread × Int))

/-- The realm of the Digest scheme has a place of its own. -/
def requestAuthorization (t : Thread) : Option (Thread × Int) :=
  let t := t.status 401
  let realm := (site.header "host").getD []
  let connection := (site.header "connection").getD []
  match t.authScheme with
  | some .basic => some (t.put (.unauthorized connection realm .basic), RET_OK)
  | some .digest => some (t.put (.unauthorized connection (realm.take 47) .digest), RET_OK)
  | none => raise 501 t

def sendAuth (t : Thread) : Option (Thread × Int) :=
  if 2 < t.nTries then raise 401 t else site.requestAuthorization raise { t with nTries := t.nTries + 1 }

def finish : Thread × Finish → Option (Thread × Int)
  | (t, .done ret) => some (t, ret)
  | (t, .raiseHTTPError ID ret) => (raise ID t).map fun out => (out.1, ret.getD out.2)
  | (t, .sendAuth) => site.sendAuth raise t
  | (t, .sendHTTPRedirect newURL) => some (site.sendHTTPRedirect newURL t)
  | (t, .sendHTTPNonModified) => some (site.sendHTTPNonModified t)

/-! ### Resources -/

/-- Where the loop from this offset down ends: at a slash, or at 0. -/
def lastSlashOffset (uri : Str) : Nat → Nat
  | 0 => 0
  | n + 1 => if uri[n + 1]? = some slash then n + 1 else lastSlashOffset uri n

def defaultURL (uri file : Str) (t : Thread) : Str :=
  let offset := lastSlashOffset uri uri.length
  (if site.request.uriEndsWithSlash then file
    else uri.drop (if offset < uri.length then offset + 1 else 0) ++ slash :: file) ++ site.behind t

def processDefaultFile (uri : Str) (onlyHeader : Bool) (t : Thread) : Option (Thread × Int) :=
  match (site.defaultFile.getD []).find? fun file => nodeExists site.sys.fs (t.filenamePath ++ slash :: file) with
  | some file => some (site.sendHTTPRedirect (site.defaultURL uri file t) t)
  | none =>
    match site.getHttpManager (ascii "DIR") with
    | none => raise 500 t
    | some handler => site.finish raise (handler.send t t.filenamePath none false onlyHeader)

def sendManaged (onlyHeader : Bool) (t : Thread) : Option (Thread × Int) :=
  match t.mime.bind fun mime => (site.getHttpManager mime.cmdName).map fun manager => (mime, manager) with
  | some (mime, manager) =>
    site.finish raise (manager.send t t.filenamePath (some mime.cgiManager) mime.selfExecuted onlyHeader)
  | none =>
    if !t.permissions.has permissionRead then site.sendAuth raise t
    else
      match site.getHttpManager (ascii "SEND") with
      | none => raise 500 t
      | some manager => site.finish raise (manager.send t t.filenamePath none false onlyHeader)

def sendFound (onlyHeader : Bool) (t : Thread) : Option (Thread × Int) :=
  site.sendManaged raise onlyHeader (t.setValue "content-type" (t.mime.elim (ascii "text/html") MimeRecord.mimeType))

/-- The body of `sendHTTPResource`, with what it calls for an error. -/
def sendResource (uri : Str) (systemrequest onlyHeader yetmapped : Bool) (t : Thread) : Option (Thread × Int) :=
  match site.preprocess { t with permissions := permissionRead ||| permissionBrowse } uri yetmapped systemrequest with
  | (t, some code) => raise code t
  | (t, none) =>
    let t := if systemrequest then { t with filenamePath := uri } else t
    match isDirectory site.sys.fs t.filenamePath with
    | .error .other => raise 500 t
    | .error .fileNotFound => site.sendFound raise onlyHeader t
    | .ok isDirectory =>
      if t.mime.isNone && isDirectory then site.processDefaultFile raise uri onlyHeader t
      else site.sendFound raise onlyHeader t

end

/-- So many resources inside one another; `none` is one more. -/
def sendHTTPResource : Nat → Str → Bool → Bool → Bool → Thread → Option (Thread × Int)
  | 0, _, _, _, _, _ => none
  | depth + 1, uri, systemrequest, onlyHeader, yetmapped, t =>
    site.sendResource (site.raiseHTTPError fun page t => sendHTTPResource depth page true t.onlyHeader true t)
      uri systemrequest onlyHeader yetmapped t

/-! ### Methods -/

/-- `raiseHTTPError` outside of a resource. -/
def raiseError (depth ID : Nat) (t : Thread) : Option (Thread × Int) :=
  site.raiseHTTPError (fun page t => site.sendHTTPResource depth page true t.onlyHeader true t) ID t

def allowMethod (t : Thread) : Bool :=
  (t.st.getData (ascii "http." ++ site.request.cmd ++ ascii ".allow") confRings).all fun allow =>
    !caseEq allow (ascii "NO")

/-- `optionsHTTPRESOURCE` and `traceHTTPRESOURCE`, whose permissions go nowhere. -/
def sendAbout (depth : Nat) (answer : Sent) (t : Thread) : Option (Thread × Int) :=
  match site.preprocess { t with permissions := site.stack } site.request.uri false false with
  | (t', some code) => site.raiseError depth code { t' with permissions := t.permissions }
  | (t', none) => some (({ t' with permissions := t.permissions }).put answer, 1)

def methods : Str :=
  ascii "OPTIONS, GET, POST, HEAD, DELETE, PUT, TRACE, MKCOL, PROPFIND, COPY, MOVE, LOCK, UNLOCK" ++
    site.commands.flatMap fun name => ascii ", " ++ name

def optionsHTTPRESOURCE (depth : Nat) : Thread → Option (Thread × Int) :=
  site.sendAbout depth (.options ((site.header "connection").getD []) site.methods)

def traceHTTPRESOURCE (depth : Nat) : Thread → Option (Thread × Int) :=
  site.sendAbout depth (.trace ((site.header "connection").getD []) site.input)

/-- The part of `controlConnection` behind the choice of the host. -/
def answer (depth : Nat) (t : Thread) : Option (Thread × Int) :=
  let cmd := site.request.cmd
  if !site.allowMethod t then site.raiseError depth 401 t
  else if cmd = ascii "GET" ∨ cmd = ascii "POST" then
    site.sendHTTPResource (depth + 1) site.request.uri false false false t
  else if cmd = ascii "HEAD" then
    site.sendHTTPResource (depth + 1) site.request.uri false true false { t with onlyHeader := true }
  else if cmd = ascii "PUT" then site.sendHTTPResource (depth + 1) site.request.uri false true false t
  else if cmd = ascii "OPTIONS" then site.optionsHTTPRESOURCE depth t
  else if cmd = ascii "TRACE" then site.traceHTTPRESOURCE depth t
  else
    match site.getHttpCommand cmd with
    | none => site.raiseError depth 501 t
    | some command =>
      site.finish (site.raiseError depth) (command.send t site.request.uri none false false)

end Site

/-! ## Files -/

structure FileStore where
  fs : FileSystem
  lastModTime : Str → Option Nat
  getRFC822GMTTime : Nat → Str
  openFile : Str → Option OpenFile
  /-- `openFile` for writing and `FilesUtility::deleteFile` do not throw. -/
  writes : Str → Bool
  deletes : Str → Bool
  inputData : Str
  realLength : Nat
  /-- The names of the filters for this type that change what they are given. -/
  getName : Option MimeRecord → Option Str
  /-- What comes out of the loops for a part of a file, and whether they throw. -/
  transfer : OpenFile → HttpRange → Str × Bool

theorem keeps_response (t : Thread) (response : HttpResponseHeader) : Keeps t { t with response } :=
  ⟨rfl, rfl, [], by simp, by simp, by simp⟩

theorem Keeps.trans {t t' t'' : Thread} (h : Keeps t t') (h' : Keeps t' t'') : Keeps t t'' := by
  obtain ⟨hlast, htries, parts, hsent, hown, hcount⟩ := h
  obtain ⟨hlast', htries', parts', hsent', hown', hcount'⟩ := h'
  refine ⟨hlast'.trans hlast, htries'.trans htries, parts ++ parts', ?_, ?_, ?_⟩
  · rw [hsent', hsent, List.append_assoc]
  · exact fun part hpart => (List.mem_append.mp hpart).elim (hown part) (hown' part)
  · rw [List.countP_append]
    omega

theorem keeps_put (t : Thread) {part : Sent} (hown : part.isOwn = true) (hhead : part.isHead = false) :
    Keeps t (t.put part) :=
  ⟨rfl, rfl, [part], rfl, by simp [hown], by simp [Thread.put, hhead]⟩

theorem keeps_sendHeader (t : Thread) : Keeps t t.sendHeader := by
  unfold Thread.sendHeader
  split_ifs with hsent
  · exact ⟨rfl, rfl, [], by simp, by simp, by simp⟩
  · rw [Bool.not_eq_true] at hsent
    exact ⟨rfl, rfl, [.header t.response], rfl, by simp [Sent.isOwn], by simp [hsent, Sent.isHead]⟩

theorem keeps_sendBody (t : Thread) (bytes : Str) : Keeps t (t.sendBody bytes) := by
  unfold Thread.sendBody
  split_ifs
  · exact keeps_response t t.response
  · exact keeps_put t rfl rfl

namespace HttpFile

def generateEtag (mtime fsize : Nat) : Str :=
  let m := BitVec.ofNat 64 mtime
  decimal ((m <<< 16 ||| m >>> 16) ||| BitVec.ofNat 64 fsize).toNat

section

variable (store : FileStore) (request : HttpRequestHeader)

def putFile (t : Thread) : Thread × Finish :=
  let t := t.keepAlive (isKeepAlive request)
  if !t.permissions.has permissionWrite then (t, .sendAuth)
  else if !store.writes t.filenamePath then (t, .raiseHTTPError 500 none)
  else
    let file := if nodeExists store.fs t.filenamePath then some ((store.openFile t.filenamePath).elim [] OpenFile.content)
      else none
    let (code, content) := Put.putFile true store.realLength request.range.rangeByteBegin file store.inputData
    (t.put (.stored t.filenamePath (content.getD [])), .raiseHTTPError code (if code = 500 then none else some RET_OK))

def deleteFile (t : Thread) : Thread × Finish :=
  if !t.permissions.has permissionDelete then (t, .sendAuth)
  else if !nodeExists store.fs t.filenamePath then (t, .raiseHTTPError 204 none)
  else if !store.deletes t.filenamePath then (t, .raiseHTTPError 500 none)
  else (t.put (.deleted t.filenamePath), .raiseHTTPError 202 none)

def response (t : Thread) (f : OpenFile) (mtime : Nat) : HttpResponseHeader :=
  let response := t.response.put (ascii "etag") (generateEtag mtime f.size)
  let response :=
    match request.range.contentRange f.size with
    | none => response
    | some (first, last, size) => { response with httpStatus := 206 }.put (ascii "content-range")
        (ascii "bytes " ++ decimal first ++ ascii "-" ++ decimal last ++ ascii "/" ++ decimal size)
  let response :=
    match store.getName t.mime with
    | none => { response with contentLength := decimal (request.range.bytesToSend f.size) }
    | some _ => response
  let response := response.setValue (ascii "connection") (ascii (if isKeepAlive request then "keep-alive" else "close"))
  match store.getName t.mime with
  | none => response.remove (ascii "transfer-encoding")
  | some name =>
    let response := response.put (ascii "content-encoding") name
    if isKeepAlive request then response.put (ascii "transfer-encoding") (ascii "chunked")
    else response.remove (ascii "transfer-encoding")

def sendFile (t : Thread) (f : OpenFile) (mtime : Nat) (onlyHeader : Bool) : Thread × Finish :=
  let t := { t with response := response store request t f mtime }.sendHeader
  if onlyHeader then (t, .done RET_OK)
  else
    let (bytes, throws) := store.transfer f request.range
    (t.sendBody bytes, if throws then .raiseHTTPError 500 none else .done RET_OK)

def send (t : Thread) (filenamePath : Str) (onlyHeader : Bool) : Thread × Finish :=
  if request.cmd = ascii "PUT" then putFile store request t
  else if request.cmd = ascii "DELETE" then deleteFile store t
  else if !t.permissions.has permissionRead then (t, .sendAuth)
  else if !nodeExists store.fs filenamePath then (t, .raiseHTTPError 404 none)
  else
    match store.lastModTime t.filenamePath with
    | none => (t, .raiseHTTPError 500 none)
    | some mtime =>
      let tmpTime := store.getRFC822GMTTime mtime
      let t := t.setValue "last-modified" tmpTime
      if tmpTime ≠ [] ∧ request.other (ascii "last-modified") = some tmpTime then (t, .sendHTTPNonModified)
      else
        match store.openFile filenamePath with
        | none => (t, .raiseHTTPError 500 none)
        | some f =>
          if request.other (ascii "etag") = some (generateEtag mtime f.size) then (t, .sendHTTPNonModified)
          else sendFile store request t f mtime onlyHeader

end

/-! ### The manager -/

section

variable (store : FileStore) (request : HttpRequestHeader)

theorem keeps_putFile (t : Thread) : Keeps t (putFile store request t).1 := by
  unfold putFile
  obtain ⟨response, -, hresponse⟩ := keepAlive_eq t (isKeepAlive request)
  have hkept := keeps_response t response
  rw [hresponse]
  dsimp only
  split_ifs
  · exact hkept
  · exact hkept
  all_goals exact hkept.trans (keeps_put _ rfl rfl)

theorem keeps_deleteFile (t : Thread) : Keeps t (deleteFile store t).1 := by
  unfold deleteFile
  split_ifs
  · exact keeps_response t t.response
  · exact keeps_response t t.response
  · exact keeps_response t t.response
  · exact keeps_put t rfl rfl

theorem keeps_sendFile (t : Thread) (f : OpenFile) (mtime : Nat) (onlyHeader : Bool) :
    Keeps t (sendFile store request t f mtime onlyHeader).1 := by
  have hheader := (keeps_response t (response store request t f mtime)).trans (keeps_sendHeader _)
  unfold sendFile
  dsimp only
  split_ifs
  · exact hheader
  · exact hheader.trans (keeps_sendBody _ _)
  · exact hheader.trans (keeps_sendBody _ _)

theorem keeps_send (t : Thread) (filenamePath : Str) (onlyHeader : Bool) :
    Keeps t (send store request t filenamePath onlyHeader).1 := by
  have hlater : ∀ mtime, Keeps t (t.setValue "last-modified" (store.getRFC822GMTTime mtime)) :=
    fun _ => keeps_response t _
  unfold send
  split_ifs
  · exact keeps_putFile store request t
  · exact keeps_deleteFile store t
  · exact keeps_response t t.response
  · exact keeps_response t t.response
  · split
    · exact keeps_response t t.response
    · dsimp only
      split_ifs
      · exact hlater _
      · split
        · exact hlater _
        · split_ifs
          · exact hlater _
          · exact (hlater _).trans (keeps_sendFile store request _ _ _ _)

theorem putFile_code (mayWrite : Bool) (realLength : Nat) (firstByte : Int) (file : Option Str) (inputData : Str) :
    (Put.putFile mayWrite realLength firstByte file inputData).1 ≠ 0 := by
  unfold Put.putFile
  dsimp only
  split_ifs <;> simp

theorem send_error (t : Thread) (filenamePath : Str) (onlyHeader : Bool) {ID : Nat} {ret : Option Int}
    (h : (send store request t filenamePath onlyHeader).2 = .raiseHTTPError ID ret) : ID ≠ 0 := by
  unfold send at h
  split_ifs at h
  · unfold putFile at h
    dsimp only at h
    split_ifs at h <;> cases h
    · decide
    all_goals exact putFile_code _ _ _ _ _
  · unfold deleteFile at h
    split_ifs at h <;> cases h <;> decide
  · cases h
    decide
  · split at h
    · cases h
      decide
    · dsimp only at h
      split_ifs at h
      split at h
      · cases h
        decide
      · split_ifs at h
        unfold sendFile at h
        dsimp only at h
        split_ifs at h
        cases h
        decide

/-- The handler under `SEND`. -/
def manager : Manager where
  send t filenamePath _ _ onlyHeader := send store request t filenamePath onlyHeader
  keeps t filenamePath _ _ onlyHeader := keeps_send store request t filenamePath onlyHeader
  error_ne t filenamePath _ _ onlyHeader _ _ h := send_error store request t filenamePath onlyHeader h

theorem headerSent_sendHeader (t : Thread) : t.sendHeader.headerSent = true := by
  unfold Thread.sendHeader
  split_ifs with h
  · exact h
  · rfl

theorem headerSent_sendBody (t : Thread) (bytes : Str) : (t.sendBody bytes).headerSent = t.headerSent := by
  unfold Thread.sendBody
  split_ifs <;> rfl

/-- A file that is read to its end is sent with one header. -/
theorem clean (h : ∀ f range, (store.transfer f range).2 = false) : (manager store request).Clean := by
  have hfile : ∀ t f mtime onlyHeader, (sendFile store request t f mtime onlyHeader).1.headerSent = true ∧
      ∃ ret, (sendFile store request t f mtime onlyHeader).2 = .done ret := by
    intro t f mtime onlyHeader
    unfold sendFile
    dsimp only
    split_ifs with honly hthrows
    · exact ⟨headerSent_sendHeader _, _, rfl⟩
    · rw [h] at hthrows
      cases hthrows
    · exact ⟨by rw [headerSent_sendBody, headerSent_sendHeader], _, rfl⟩
  intro t filenamePath exec execute onlyHeader t' call hfresh hsend
  change send store request t filenamePath onlyHeader = (t', call) at hsend
  -- every other end comes without a header and is a call
  have hother : ∀ {t'' : Thread} {last : Finish}, t''.headerSent = false → (∀ ret, last ≠ .done ret) →
      (t'', last) = (t', call) → (t'.headerSent = true ↔ ∃ ret, call = .done ret) := by
    rintro t'' last hheader hlast heq
    obtain ⟨rfl, rfl⟩ := Prod.mk.inj heq
    exact iff_of_false (by rw [hheader]; exact Bool.false_ne_true) fun ⟨ret, hret⟩ => hlast ret hret
  unfold send at hsend
  split_ifs at hsend
  · unfold putFile at hsend
    dsimp only at hsend
    obtain ⟨response, -, hresponse⟩ := keepAlive_eq t (isKeepAlive request)
    rw [hresponse] at hsend
    split_ifs at hsend <;> exact hother (by exact hfresh) (by nofun) hsend
  · unfold deleteFile at hsend
    split_ifs at hsend <;> exact hother (by exact hfresh) (by nofun) hsend
  · exact hother (by exact hfresh) (by nofun) hsend
  · exact hother (by exact hfresh) (by nofun) hsend
  · cases hmtime : store.lastModTime t.filenamePath with
    | none =>
      rw [hmtime] at hsend
      exact hother (by exact hfresh) (by nofun) hsend
    | some mtime =>
      rw [hmtime] at hsend
      dsimp only at hsend
      split_ifs at hsend
      · exact hother (by exact hfresh) (by nofun) hsend
      · cases hopen : store.openFile filenamePath with
        | none =>
          rw [hopen] at hsend
          exact hother (by exact hfresh) (by nofun) hsend
        | some f =>
          rw [hopen] at hsend
          dsimp only at hsend
          split_ifs at hsend
          · exact hother (by exact hfresh) (by nofun) hsend
          · obtain ⟨hheader, ret, hret⟩ := hfile (t.setValue "last-modified" (store.getRFC822GMTTime mtime)) f mtime
              onlyHeader
            rw [hsend] at hheader hret
            exact iff_of_true hheader ⟨ret, hret⟩

end

end HttpFile

/-! ## A server with one error page -/

def pagePath : Str := ascii "/srv/sys//errors/404.html"

def pageSystem : PathSystem MimeRecord where
  fs := ⟨fun path => if path = pagePath then .ok .file
      else if pagePath.take path.length = path then .ok .directory else .error .fileNotFound,
    fun _ => .error .fileNotFound⟩
  enotdir _ := false
  wd := emptyRoot.wd
  wd_absolute := emptyRoot.wd_absolute
  locationMime _ := none
  getMIME _ := some ⟨ascii "text/html", ascii "SEND", [], false⟩

def pageStore : FileStore where
  fs := pageSystem.fs
  lastModTime path := if path = pagePath then some 0 else none
  getRFC822GMTTime _ := ascii "Thu, 01 Jan 1970 00:00:00 GMT"
  openFile path := if path = pagePath then some ⟨.readWrite, ascii "Not here."⟩ else none
  writes _ := false
  deletes _ := false
  inputData := []
  realLength := 4096
  getName _ := none
  transfer f range := ((f.content.drop range.rangeByteBegin.toNat).take (range.bytesToSend f.size), false)

def partRequest : HttpRequestHeader :=
  { HttpRequestHeader.free with cmd := ascii "GET", uri := ascii "/a", range := ⟨0, 3⟩ }

def pageSite : Site where
  env := Ftp.plainEnv deniedReader
  sys := pageSystem
  c := alicesConnection
  host := ⟨ascii "/srv/www", ascii "/srv/sys"⟩
  hasHost := rfl
  request := partRequest
  protocolPrefix := ascii "http://"
  port := 80
  version := ascii "0.10"
  defaultFile := none
  getHttpManager name := if name = ascii "SEND" then some (HttpFile.manager pageStore partRequest) else none
  getHttpCommand _ := none
  commands := []
  input := []
  failed t _ := (t.st, t.pathInfo)
  stack := 0

def pageThread : Thread where
  lastError := 0
  headerSent := false
  onlyHeader := false
  response := pageSite.response
  permissions := 0
  authScheme := none
  st := newHttpToken ⟨false, 0⟩
  filenamePath := []
  pathInfo := []
  mime := none
  nTries := 0
  sent := []

theorem page_clean (manager : Manager) (h : pageSite.Uses manager) : manager.Clean := by
  rcases h with ⟨name, h⟩ | ⟨name, h⟩
  · change (if name = ascii "SEND" then some (HttpFile.manager pageStore partRequest) else none) = some manager at h
    split_ifs at h
    cases h
    exact HttpFile.clean pageStore partRequest fun _ _ => rfl
  · cases h

/-! ## What an answer is made of -/

/-- Nothing is sent on the way. An attempt may be counted. -/
structure Quiet (t t' : Thread) : Prop where
  sent : t'.sent = t.sent
  headerSent : t'.headerSent = t.headerSent
  nTries : t'.nTries = t.nTries ∨ t.nTries ≤ 2 ∧ t'.nTries = t.nTries + 1

/-- All the ways to an answer. -/
inductive Answered (site : Site) : Thread → Thread → Prop
  | quiet {t t' last : Thread} : Quiet t t' → Answered site t' last → Answered site t last
  | done {manager : Manager} {t t' : Thread} {path : Str} {exec : Option Str} {execute onlyHeader : Bool} {ret : Int} :
      site.Uses manager → manager.send t path exec execute onlyHeader = (t', .done ret) → Answered site t t'
  | passed {manager : Manager} {t t' last : Thread} {path : Str} {exec : Option Str} {execute onlyHeader : Bool}
      {call : Finish} : site.Uses manager → manager.send t path exec execute onlyHeader = (t', call) →
        (∀ ret, call ≠ .done ret) → Answered site t' last → Answered site t last
  | direct {t : Thread} {part : Sent} : part.isHead = true → part.isChallenge = false → Answered site t (t.put part)
  | challenge {t : Thread} (connection realm : Str) (scheme : AuthScheme) : t.nTries ≤ 2 →
      Answered site t ({ t with nTries := t.nTries + 1 }.put (.unauthorized connection realm scheme))
  | hardError {t : Thread} : Answered site t t.sendHTTPhardError500.1
  | plain {t : Thread} (ID : Nat) : Answered site t (t.plainError ID).1

/-- A call that answers every thread of a kind. -/
def Answers (site : Site) (ok : Nat → Prop) (f : Thread → Option (Thread × Int)) : Prop :=
  ∀ t, ok t.lastError → ∃ out, f t = some out ∧ Answered site t out.1

section

variable {site : Site}

theorem answered_after {t t' : Thread} (hquiet : Quiet t t') {answer : Option (Thread × Int)}
    (h : ∃ out, answer = some out ∧ Answered site t' out.1) : ∃ out, answer = some out ∧ Answered site t out.1 :=
  h.imp fun _ hout => ⟨hout.1, .quiet hquiet hout.2⟩

theorem answered_redirect (newURL : Str) (t : Thread) : Answered site t (site.sendHTTPRedirect newURL t).1 :=
  have hquiet : Quiet t (t.status 302) := ⟨rfl, rfl, .inl rfl⟩
  .quiet hquiet (.direct rfl rfl)

theorem answered_notModified (t : Thread) : Answered site t (site.sendHTTPNonModified t).1 :=
  have hquiet : Quiet t (t.status 304) := ⟨rfl, rfl, .inl rfl⟩
  .quiet hquiet (.direct rfl rfl)

theorem except_bind_eq_error {ε α β : Type} {x : Except ε α} {f : α → Except ε β} {e : ε} (h : (x >>= f) = .error e) :
    x = .error e ∨ ∃ a, f a = .error e := by
  cases x with
  | error e' => exact .inl (by simpa [bind, Except.bind] using h)
  | ok a => exact .inr ⟨a, h⟩

theorem requestTarget_code {fs : FileSystem} {c : HttpConnection} {resource : Str} {yetmapped : Bool} {code : Nat}
    (h : requestTarget fs c resource yetmapped = .error code) : code ≠ 0 := by
  rcases except_bind_eq_error h with h | ⟨path, h⟩
  · unfold mapResource at h
    split_ifs at h
    rcases requestPath_eq c.td resource with ⟨-, heq⟩ | ⟨-, heq⟩ <;> rw [heq] at h <;> cases h
    decide
  · rcases except_bind_eq_error h with h | ⟨directory, h⟩
    · unfold requestDirectory at h
      split at h <;> cases h
      decide
    · cases h

theorem preprocess_error {site : Site} {resource : Str} {yetmapped systemrequest : Bool} {permissions : Mask}
    {st : SecurityToken} {code : Nat} (h : preprocessHttpRequest site.env site.sys site.c resource yetmapped permissions
      st systemrequest = .error code) : code ≠ 0 := by
  rcases except_bind_eq_error h with h | ⟨perms, h⟩
  · rcases except_bind_eq_error h with h | ⟨target, h⟩
    · exact requestTarget_code h
    · split_ifs at h
      · cases h
        decide
      · unfold readPermissions at h
        split_ifs at h
        split at h <;> cases h
        decide
  · rcases except_bind_eq_error h with h | ⟨target, h⟩
    · exact requestTarget_code h
    · unfold splitPathInfo at h
      split at h
      · cases h
        decide
      · cases h
      · cases h
      · split_ifs at h
        · cases h
        · cases h
          decide
      · cases h

theorem preprocess_quiet (t : Thread) (resource : Str) (yetmapped systemrequest : Bool) :
    Quiet t (site.preprocess t resource yetmapped systemrequest).1 ∧
      (site.preprocess t resource yetmapped systemrequest).1.lastError = t.lastError ∧
      ∀ code ∈ (site.preprocess t resource yetmapped systemrequest).2, code ≠ 0 := by
  unfold Site.preprocess
  obtain ⟨response, -, hresponse⟩ := keepAlive_eq t (isKeepAlive site.request)
  rw [hresponse]
  dsimp only
  split
  · rename_i code hcode
    exact ⟨⟨rfl, rfl, .inl rfl⟩, rfl, fun _ h => Option.mem_some_iff.mp h ▸ preprocess_error hcode⟩
  · exact ⟨⟨rfl, rfl, .inl rfl⟩, rfl, nofun⟩

/-! ### One call -/

section

variable {raise : Nat → Thread → Option (Thread × Int)} {ok : Nat → Prop}
  (hraise : ∀ ID, ID ≠ 0 → Answers site ok (raise ID))

include hraise

theorem requestAuthorization_answers {t : Thread} (hok : ok t.lastError) (htries : t.nTries ≤ 2) :
    ∃ out, site.requestAuthorization raise { t with nTries := t.nTries + 1 } = some out ∧ Answered site t out.1 := by
  have hquiet : Quiet t (t.status 401) := ⟨rfl, rfl, .inl rfl⟩
  unfold Site.requestAuthorization
  dsimp only
  split
  · exact ⟨_, rfl, .quiet hquiet (.challenge _ _ .basic htries)⟩
  · exact ⟨_, rfl, .quiet hquiet (.challenge _ _ .digest htries)⟩
  · have hcounted : Quiet t ({ t with nTries := t.nTries + 1 }.status 401) := ⟨rfl, rfl, .inr ⟨htries, rfl⟩⟩
    exact answered_after hcounted (hraise 501 (by decide) _ hok)

theorem sendAuth_answers : Answers site ok (site.sendAuth raise) := by
  intro t hok
  unfold Site.sendAuth
  split_ifs with htries
  · exact hraise 401 (by decide) t hok
  · exact requestAuthorization_answers hraise hok (Nat.le_of_not_lt htries)

theorem finish_answers {manager : Manager} (hmanager : site.Uses manager) (path : Str) (exec : Option Str)
    (execute onlyHeader : Bool) {t : Thread} (hok : ok t.lastError) :
    ∃ out, site.finish raise (manager.send t path exec execute onlyHeader) = some out ∧ Answered site t out.1 := by
  have hkeeps := manager.keeps t path exec execute onlyHeader
  have herror := manager.error_ne t path exec execute onlyHeader
  rcases hsend : manager.send t path exec execute onlyHeader with ⟨t', call⟩
  rw [hsend] at hkeeps herror
  have hok' : ok t'.lastError := hkeeps.lastError ▸ hok
  cases call with
  | done ret => exact ⟨_, rfl, .done hmanager hsend⟩
  | raiseHTTPError ID ret =>
    obtain ⟨out, hout, hanswered⟩ := hraise ID (herror ID ret rfl) t' hok'
    refine ⟨(out.1, ret.getD out.2), ?_, .passed hmanager hsend nofun hanswered⟩
    rw [Site.finish, hout, Option.map_some]
  | sendAuth =>
    obtain ⟨out, hout, hanswered⟩ := sendAuth_answers hraise t' hok'
    exact ⟨out, hout, .passed hmanager hsend nofun hanswered⟩
  | sendHTTPRedirect newURL => exact ⟨_, rfl, .passed hmanager hsend nofun (answered_redirect newURL t')⟩
  | sendHTTPNonModified => exact ⟨_, rfl, .passed hmanager hsend nofun (answered_notModified t')⟩

theorem processDefaultFile_answers (uri : Str) (onlyHeader : Bool) :
    Answers site ok (site.processDefaultFile raise uri onlyHeader) := by
  intro t hok
  unfold Site.processDefaultFile
  split
  · exact ⟨_, rfl, answered_redirect _ t⟩
  · split
    · exact hraise 500 (by decide) t hok
    · rename_i handler hhandler
      exact finish_answers hraise (.inl ⟨_, hhandler⟩) _ _ _ _ hok

theorem sendManaged_answers (onlyHeader : Bool) : Answers site ok (site.sendManaged raise onlyHeader) := by
  intro t hok
  unfold Site.sendManaged
  split
  · rename_i mime manager hmanager
    obtain ⟨record, -, hrecord⟩ := Option.bind_eq_some_iff.mp hmanager
    obtain ⟨found, hfound, heq⟩ := Option.map_eq_some_iff.mp hrecord
    obtain ⟨-, rfl⟩ := Prod.mk.inj heq
    exact finish_answers hraise (.inl ⟨_, hfound⟩) _ _ _ _ hok
  · split_ifs
    · exact sendAuth_answers hraise t hok
    · split
      · exact hraise 500 (by decide) t hok
      · rename_i manager hmanager
        exact finish_answers hraise (.inl ⟨_, hmanager⟩) _ _ _ _ hok

theorem sendFound_answers (onlyHeader : Bool) : Answers site ok (site.sendFound raise onlyHeader) := by
  intro t hok
  have hquiet : ∀ value, Quiet t (t.setValue "content-type" value) := fun _ => ⟨rfl, rfl, .inl rfl⟩
  exact answered_after (hquiet _) (sendManaged_answers hraise onlyHeader _ hok)

theorem sendResource_answers (uri : Str) (systemrequest onlyHeader yetmapped : Bool) :
    Answers site ok (site.sendResource raise uri systemrequest onlyHeader yetmapped) := by
  intro t hok
  obtain ⟨hquiet, hlast, hcode⟩ := @preprocess_quiet site { t with permissions := permissionRead ||| permissionBrowse }
    uri yetmapped systemrequest
  unfold Site.sendResource
  generalize site.preprocess { t with permissions := permissionRead ||| permissionBrowse } uri yetmapped systemrequest =
    preprocessed at hquiet hlast hcode ⊢
  obtain ⟨t', code⟩ := preprocessed
  have hok' : ok t'.lastError := hlast ▸ hok
  refine @answered_after site t t' ⟨hquiet.sent, hquiet.headerSent, hquiet.nTries⟩ _ ?_
  cases code with
  | some code => exact hraise code (hcode code rfl) t' hok'
  | none =>
    have hmapped : Quiet t' (if systemrequest then { t' with filenamePath := uri } else t') ∧
        ok (if systemrequest then { t' with filenamePath := uri } else t').lastError := by
      split_ifs <;> exact ⟨⟨rfl, rfl, .inl rfl⟩, hok'⟩
    refine answered_after hmapped.1 ?_
    dsimp only
    generalize (if systemrequest then { t' with filenamePath := uri } else t') = t' at hmapped
    split
    · exact hraise 500 (by decide) t' hmapped.2
    · exact sendFound_answers hraise onlyHeader t' hmapped.2
    · split_ifs
      · exact processDefaultFile_answers hraise uri onlyHeader t' hmapped.2
      · exact sendFound_answers hraise onlyHeader t' hmapped.2

end

/-! ### Errors inside errors -/

section

variable {page : Str → Thread → Option (Thread × Int)}

/-- The second error ends it. -/
theorem raiseHTTPError_again (ID : Nat) : Answers site (· ≠ 0) (site.raiseHTTPError page ID) := by
  intro t hagain
  exact ⟨_, if_pos hagain, .hardError⟩

theorem raiseHTTPError_answers (hpage : ∀ path, Answers site (· ≠ 0) (page path)) {ID : Nat} (hID : ID ≠ 0) :
    Answers site (fun _ => True) (site.raiseHTTPError page ID) := by
  intro t _
  by_cases hlast : t.lastError ≠ 0
  · exact raiseHTTPError_again ID t hlast
  · unfold Site.raiseHTTPError
    rw [if_neg hlast]
    obtain ⟨response, -, hresponse⟩ := keepAlive_eq { t with lastError := ID } site.keepAlive
    rw [hresponse]
    dsimp only
    have hquiet : Quiet t ({ { t with lastError := ID } with response }.status ID) := ⟨rfl, rfl, .inl rfl⟩
    refine answered_after hquiet ?_
    split
    · exact ⟨_, rfl, answered_redirect _ _⟩
    · have htype : ∀ (t : Thread) message, Quiet t (t.errorType message) := fun _ _ => ⟨rfl, rfl, .inl rfl⟩
      split_ifs
      · exact answered_after (htype _ _) (hpage _ _ hID)
      · exact answered_after (htype _ _) ⟨_, rfl, .plain ID⟩
      · exact ⟨_, rfl, .plain ID⟩

end

theorem sendErrorPage_answers (depth : Nat) (uri : Str) (systemrequest onlyHeader yetmapped : Bool) :
    Answers site (· ≠ 0) (site.sendHTTPResource (depth + 1) uri systemrequest onlyHeader yetmapped) :=
  sendResource_answers (fun ID _ => raiseHTTPError_again ID) uri systemrequest onlyHeader yetmapped

theorem raiseError_answers (depth : Nat) {ID : Nat} (hID : ID ≠ 0) :
    Answers site (fun _ => True) (site.raiseError (depth + 1) ID) :=
  raiseHTTPError_answers (fun path t hagain => sendErrorPage_answers depth path true t.onlyHeader true t hagain) hID

/-- Two resources inside one another are all that there can be. -/
theorem sendHTTPResource_answers (depth : Nat) (uri : Str) (systemrequest onlyHeader yetmapped : Bool) :
    Answers site (fun _ => True) (site.sendHTTPResource (depth + 2) uri systemrequest onlyHeader yetmapped) :=
  sendResource_answers (fun _ hID => raiseError_answers depth hID) uri systemrequest onlyHeader yetmapped

theorem sendAbout_answers (depth : Nat) {answer : Sent} (hhead : answer.isHead = true)
    (hchallenge : answer.isChallenge = false) : Answers site (fun _ => True) (site.sendAbout (depth + 1) answer) := by
  intro t _
  obtain ⟨hquiet, -, hcode⟩ := @preprocess_quiet site { t with permissions := site.stack } site.request.uri false false
  unfold Site.sendAbout
  generalize site.preprocess { t with permissions := site.stack } site.request.uri false false = preprocessed
    at hquiet hcode ⊢
  obtain ⟨t', code⟩ := preprocessed
  have hlater : Quiet t { t' with permissions := t.permissions } := ⟨hquiet.sent, hquiet.headerSent, hquiet.nTries⟩
  cases code with
  | some code => exact answered_after hlater (raiseError_answers depth (hcode code rfl) _ trivial)
  | none => exact answered_after hlater ⟨_, rfl, .direct hhead hchallenge⟩

/-- **Every request is answered.** -/
theorem answer_answers (depth : Nat) : Answers site (fun _ => True) (site.answer (depth + 1)) := by
  intro t _
  unfold Site.answer
  dsimp only
  split_ifs
  · exact raiseError_answers depth (by decide) t trivial
  · exact sendHTTPResource_answers depth _ _ _ _ t trivial
  · have hquiet : Quiet t { t with onlyHeader := true } := ⟨rfl, rfl, .inl rfl⟩
    exact answered_after hquiet (sendHTTPResource_answers depth _ _ _ _ _ trivial)
  · exact sendHTTPResource_answers depth _ _ _ _ t trivial
  · exact sendAbout_answers depth rfl rfl t trivial
  · exact sendAbout_answers depth rfl rfl t trivial
  · split
    · exact raiseError_answers depth (by decide) t trivial
    · rename_i command hcommand
      have hraise : ∀ ID, ID ≠ 0 → Answers site (fun _ => True) (site.raiseError (depth + 1) ID) :=
        fun _ hID => raiseError_answers depth hID
      exact finish_answers hraise (.inr ⟨_, hcommand⟩) _ _ _ _ trivial

end

/-! ## One answer -/

section

variable {site : Site} {t last : Thread}

theorem sendHeader_sent (t : Thread) : t.sendHeader.sent = t.sent ++ if t.headerSent then [] else [.header t.response] := by
  unfold Thread.sendHeader
  split_ifs
  · exact (List.append_nil _).symm
  · rfl

theorem sendHeader_fresh (hfresh : t.headerSent = false) : t.sendHeader.sent = t.sent ++ [.header t.response] := by
  rw [sendHeader_sent, hfresh, if_neg Bool.false_ne_true]

theorem sendBody_sent (t : Thread) (bytes : Str) :
    (t.sendBody bytes).sent = t.sent ++ if bytes = [] then [] else [.body bytes] := by
  unfold Thread.sendBody
  split_ifs
  · exact (List.append_nil _).symm
  · rfl

theorem plainError_sent (t : Thread) (ID : Nat) : ∃ response bytes, (t.plainError ID).1.sent =
    t.sent ++ ((if t.headerSent then [] else [.header response]) ++ if bytes = [] then [] else [.body bytes]) := by
  unfold Thread.plainError
  dsimp only
  rw [sendBody_sent, sendHeader_sent, List.append_assoc]
  exact ⟨_, _, rfl⟩

theorem hardError_sent (t : Thread) : t.sendHTTPhardError500.1.sent =
    t.sent ++ .hardError :: if t.onlyHeader then [] else [.body hardHTML] := by
  unfold Thread.sendHTTPhardError500
  dsimp only
  split_ifs with h h' h'
  · rfl
  · exact absurd h h'
  · exact absurd h' h
  · simp [Thread.put, Thread.status]

theorem Answered.one_head (hclean : ∀ manager, site.Uses manager → manager.Clean) (h : Answered site t last)
    (hfresh : t.headerSent = false) : ∃ parts, last.sent = t.sent ++ parts ∧ parts.countP Sent.isHead = 1 := by
  induction h with
  | quiet hquiet _ ih =>
    obtain ⟨parts, hsent, hcount⟩ := ih (hquiet.headerSent.trans hfresh)
    exact ⟨parts, hquiet.sent ▸ hsent, hcount⟩
  | @done manager t t' path exec execute onlyHeader ret hmanager hsend =>
    have hkeeps := manager.keeps t path exec execute onlyHeader
    rw [hsend] at hkeeps
    obtain ⟨parts, hsent, -, hcount⟩ := hkeeps.sent
    have hheader := (hclean manager hmanager _ _ _ _ _ _ _ hfresh hsend).mpr ⟨ret, rfl⟩
    dsimp only at hsent hcount
    rw [hfresh, hheader, Bool.toNat_false, Bool.toNat_true, Nat.zero_add] at hcount
    exact ⟨parts, hsent, hcount⟩
  | @passed manager t t' last path exec execute onlyHeader call hmanager hsend hcall _ ih =>
    have hkeeps := manager.keeps t path exec execute onlyHeader
    rw [hsend] at hkeeps
    obtain ⟨first, hfirst, -, hcount⟩ := hkeeps.sent
    have hheader : t'.headerSent = false := by
      rw [← Bool.not_eq_true, hclean manager hmanager _ _ _ _ _ _ _ hfresh hsend]
      rintro ⟨ret, hret⟩
      exact hcall ret hret
    dsimp only at hfirst hcount
    rw [hfresh, hheader, Bool.toNat_false, Nat.zero_add] at hcount
    obtain ⟨parts, hsent, hone⟩ := ih hheader
    refine ⟨first ++ parts, by rw [hsent, hfirst, List.append_assoc], ?_⟩
    rw [List.countP_append, hcount, hone]
  | direct hhead _ => exact ⟨_, rfl, by simp [hhead]⟩
  | challenge connection realm scheme _ => exact ⟨_, rfl, rfl⟩
  | hardError => exact ⟨_, hardError_sent _, by split_ifs <;> rfl⟩
  | @plain t ID =>
    obtain ⟨response, bytes, hsent⟩ := plainError_sent t ID
    rw [hfresh, if_neg Bool.false_ne_true] at hsent
    exact ⟨_, hsent, by split_ifs <;> rfl⟩

end

/-! ## Attempts -/

section

variable {site : Site} {t last : Thread}

/-- A challenge is an attempt that is counted. -/
theorem Answered.tries (h : Answered site t last) : (t.nTries ≤ 3 → last.nTries ≤ 3) ∧
    ∃ parts, last.sent = t.sent ++ parts ∧ parts.countP Sent.isChallenge + t.nTries ≤ last.nTries := by
  have hown : ∀ {parts : List Sent}, (∀ part ∈ parts, part.isOwn) → parts.countP Sent.isChallenge = 0 := by
    intro parts hparts
    refine List.countP_eq_zero.mpr fun part hpart => ?_
    have := hparts part hpart
    cases part <;> simp_all [Sent.isOwn, Sent.isChallenge]
  induction h with
  | quiet hquiet _ ih =>
    obtain ⟨hle, parts, hsent, hcount⟩ := ih
    have htries := hquiet.nTries
    exact ⟨fun h => hle (by omega), parts, hquiet.sent ▸ hsent, by omega⟩
  | @done manager t t' path exec execute onlyHeader ret _ hsend =>
    have hkeeps := manager.keeps t path exec execute onlyHeader
    rw [hsend] at hkeeps
    obtain ⟨parts, hsent, hparts, -⟩ := hkeeps.sent
    have htries : t'.nTries = t.nTries := hkeeps.nTries
    exact ⟨fun h => htries ▸ h, parts, hsent, by rw [hown hparts]; omega⟩
  | @passed manager t t' last path exec execute onlyHeader call _ hsend _ _ ih =>
    have hkeeps := manager.keeps t path exec execute onlyHeader
    rw [hsend] at hkeeps
    obtain ⟨first, hfirst, hparts, -⟩ := hkeeps.sent
    have htries : t'.nTries = t.nTries := hkeeps.nTries
    obtain ⟨hle, parts, hsent, hcount⟩ := ih
    dsimp only at hfirst
    refine ⟨fun h => hle (by omega), first ++ parts, by rw [hsent, hfirst, List.append_assoc], ?_⟩
    rw [List.countP_append, hown hparts]
    omega
  | @direct t part _ hchallenge => exact ⟨id, [part], rfl, by simp [hchallenge, Thread.put]⟩
  | @challenge t connection realm scheme htries =>
    refine ⟨fun _ => ?_, _, rfl, ?_⟩
    · change t.nTries + 1 ≤ 3
      omega
    · change 1 + t.nTries ≤ t.nTries + 1
      omega
  | @hardError t =>
    have htries : t.sendHTTPhardError500.1.nTries = t.nTries := by
      unfold Thread.sendHTTPhardError500
      dsimp only
      split_ifs <;> rfl
    exact ⟨fun h => htries ▸ h, _, hardError_sent t, by rw [htries]; split_ifs <;> simp [Sent.isChallenge]⟩
  | @plain t ID =>
    have htries : (t.plainError ID).1.nTries = t.nTries := by
      unfold Thread.plainError Thread.sendBody Thread.sendHeader
      dsimp only
      split_ifs <;> rfl
    obtain ⟨response, bytes, hsent⟩ := plainError_sent t ID
    exact ⟨fun h => htries ▸ h, _, hsent, by rw [htries]; split_ifs <;> simp [Sent.isChallenge]⟩

structure Turn where
  site : Site
  /-- The context as the thread has it from another request. -/
  thread : Thread
  /-- More than five seconds have gone since the last one. -/
  idle : Bool

/-- The context as `controlConnection` sets it up. -/
def Turn.start (turn : Turn) (nTries : Nat) : Thread :=
  { turn.thread with
    lastError := 0
    headerSent := false
    onlyHeader := false
    response := turn.site.response
    filenamePath := []
    mime := none
    nTries := if turn.idle then 0 else nTries
    sent := [] }

def Turn.step (depth : Nat) (s : Nat × Nat) (turn : Turn) : Option (Nat × Nat) :=
  (turn.site.answer depth (turn.start s.1)).map fun out => (out.1.nTries, s.2 + out.1.sent.countP Sent.isChallenge)

theorem step_tries (depth : Nat) (turn : Turn) {s : Nat × Nat} (hs : s.1 ≤ 3) :
    ∃ s', Turn.step (depth + 1) s turn = some s' ∧ s'.1 ≤ 3 ∧ s'.2 + s.1 ≤ s.2 + s'.1 + 3 * turn.idle.toNat := by
  obtain ⟨out, hout, hanswered⟩ := @answer_answers turn.site depth (turn.start s.1) trivial
  obtain ⟨hle, parts, hsent, hcount⟩ := hanswered.tries
  have hparts : out.1.sent = parts := hsent
  have hstart : (turn.start s.1).nTries = if turn.idle then 0 else s.1 := rfl
  refine ⟨_, by rw [Turn.step, hout, Option.map_some], ?_, ?_⟩
  · refine hle ?_
    rw [hstart]
    split_ifs <;> omega
  · rw [hparts]
    rw [hstart] at hcount
    cases hidle : turn.idle with
    | false =>
      rw [hidle, if_neg Bool.false_ne_true] at hcount
      rw [Bool.toNat_false]
      omega
    | true =>
      rw [Bool.toNat_true]
      omega

end

/-! ## Error pages -/

/-- The error has a page that the server finds and sends as a file. -/
structure ErrorPage (site : Site) (store : FileStore) (t : Thread) (ID : Nat) (perms : FilePermissions)
    (found : Preprocessed MimeRecord) : Prop where
  first : t.lastError = 0
  fresh : t.headerSent = false
  noURL : t.st.getData (ascii "http.error.file." ++ decimal ID) securityRings = none
  used : t.useMessagesFiles = true
  file : isDirectory site.sys.fs (site.errorPage ID) = .ok false
  mapped : preprocessHttpRequest site.env site.sys site.c (site.errorPage ID) true
    (permissionRead ||| permissionBrowse) t.st true = .ok (perms, found)
  managed : ∃ mime, found.mime = some mime ∧
    site.getHttpManager mime.cmdName = some (HttpFile.manager store site.request)
  fs : store.fs = site.sys.fs

/-- The thread when the manager is called for a page of the server's own. -/
structure AtPage (t t' : Thread) (page : Str) (perms : FilePermissions) : Prop where
  lastError : t'.lastError = t.lastError
  headerSent : t'.headerSent = t.headerSent
  nTries : t'.nTries = t.nTries
  sent : t'.sent = t.sent
  permissions : t'.permissions = perms.permissions
  filenamePath : t'.filenamePath = page
  status : t'.response.httpStatus = t.response.httpStatus

section

variable {site : Site} {store : FileStore} {t : Thread} {ID : Nat} {perms : FilePermissions}
  {found : Preprocessed MimeRecord}

theorem nodeExists_of_isDirectory {fs : FileSystem} {path : Str} {b : Bool} (h : isDirectory fs path = .ok b) :
    nodeExists fs path = true := by
  unfold isDirectory at h
  unfold nodeExists
  cases hstat : fs.stat (cstr path) with
  | error e =>
    rw [hstat] at h
    cases h
  | ok kind => rfl

theorem preprocess_mapped {resource : Str} {yetmapped systemrequest : Bool}
    (h : preprocessHttpRequest site.env site.sys site.c resource yetmapped t.permissions t.st systemrequest =
      .ok (perms, found)) :
    ∃ response, response.httpStatus = t.response.httpStatus ∧
      site.preprocess t resource yetmapped systemrequest = ({ t with
        response
        permissions := perms.permissions
        st := perms.st
        authScheme := some perms.authScheme
        filenamePath := found.filenamePath
        pathInfo := found.pathInfo
        mime := found.mime }, none) := by
  obtain ⟨response, hstatus, hresponse⟩ := keepAlive_eq t (isKeepAlive site.request)
  refine ⟨response, hstatus, ?_⟩
  unfold Site.preprocess
  rw [hresponse]
  dsimp only
  rw [h]

theorem sendResource_page {raise : Nat → Thread → Option (Thread × Int)} {page : Str} {onlyHeader : Bool}
    {mime : MimeRecord} {manager : Manager}
    (hmapped : preprocessHttpRequest site.env site.sys site.c page true (permissionRead ||| permissionBrowse) t.st true =
      .ok (perms, found))
    (hfile : isDirectory site.sys.fs page = .ok false) (hmime : found.mime = some mime)
    (hmanager : site.getHttpManager mime.cmdName = some manager) :
    ∃ t', AtPage t t' page perms ∧ site.sendResource raise page true onlyHeader true t =
      site.finish raise (manager.send t' page (some mime.cgiManager) mime.selfExecuted onlyHeader) := by
  obtain ⟨response, hstatus, hpreprocess⟩ := @preprocess_mapped site
    { t with permissions := permissionRead ||| permissionBrowse } perms found page true true hmapped
  refine ⟨{ t with
    response := response.setValue (ascii "content-type") mime.mimeType
    permissions := perms.permissions
    st := perms.st
    authScheme := some perms.authScheme
    filenamePath := page
    pathInfo := found.pathInfo
    mime := some mime }, ⟨rfl, rfl, rfl, rfl, rfl, rfl, ?_⟩, ?_⟩
  · exact (setValue_status { t with response } "content-type" mime.mimeType).trans hstatus
  · unfold Site.sendResource
    rw [hpreprocess]
    dsimp only
    rw [if_pos rfl]
    dsimp only
    rw [hfile]
    dsimp only
    rw [hmime]
    unfold Site.sendFound Site.sendManaged
    simp only [Thread.setValue, Option.bind_some, hmanager, Option.map_some, Option.elim_some, Option.isNone_some,
      Bool.false_and, Bool.false_eq_true, if_false]

theorem raise_page (hpage : ErrorPage site store t ID perms found) (depth : Nat) :
    ∃ t', AtPage ({ t with lastError := ID }.status ID) t' (site.errorPage ID) perms ∧
      site.raiseError (depth + 1) ID t =
        site.finish (site.raiseError depth) (HttpFile.send store site.request t' (site.errorPage ID) t.onlyHeader) := by
  obtain ⟨mime, hmime, hmanager⟩ := hpage.managed
  obtain ⟨response, -, hkeepAlive⟩ := keepAlive_eq { t with lastError := ID } site.keepAlive
  have hst : (({ { t with lastError := ID } with response }.status ID).errorType (getErrorMessage ID)).st = t.st := rfl
  have hmapped := hpage.mapped
  rw [← hst] at hmapped
  obtain ⟨t', hat, hsend⟩ := @sendResource_page site _ perms found (site.raiseError depth) (site.errorPage ID) t.onlyHeader
    mime (HttpFile.manager store site.request) hmapped hpage.file hmime hmanager
  refine ⟨t', ⟨hat.lastError, hat.headerSent, hat.nTries, hat.sent, hat.permissions, hat.filenamePath, hat.status⟩, ?_⟩
  change _ = site.finish (site.raiseError depth) ((HttpFile.manager store site.request).send t' (site.errorPage ID)
    (some mime.cgiManager) mime.selfExecuted t.onlyHeader)
  rw [← hsend]
  have hexists := nodeExists_of_isDirectory hpage.file
  have hused : ∀ response : HttpResponseHeader, ({ { t with lastError := ID } with response }.status ID).useMessagesFiles =
      true := fun _ => hpage.used
  unfold Site.raiseError Site.raiseHTTPError
  rw [if_neg (not_not.mpr hpage.first), hkeepAlive]
  dsimp only
  have hurl : ({ { t with lastError := ID } with response }.status ID).st.getData
      (ascii "http.error.file." ++ decimal ID) securityRings = none := hpage.noURL
  rw [hurl]
  dsimp only
  rw [if_pos (hused response), if_pos hexists]
  rfl

/-- The second error on the way. -/
theorem raiseError_again {t : Thread} (hlast : t.lastError ≠ 0) (depth ID : Nat) :
    site.raiseError depth ID t = some t.sendHTTPhardError500 := if_pos hlast

/-- It belongs to no answer with a header of its own, and changes no file. -/
def Sent.isPlain : Sent → Bool
  | .unauthorized _ _ _ | .hardError | .body _ | .notModified _ => true
  | _ => false

theorem hardError_plain (t : Thread) : ∃ parts, t.sendHTTPhardError500.1.sent = t.sent ++ parts ∧
    ∀ part ∈ parts, part.isPlain := by
  refine ⟨_, hardError_sent t, ?_⟩
  split_ifs <;> simp [Sent.isPlain]

theorem finish_again {t : Thread} (hlast : t.lastError ≠ 0) (depth ID : Nat) (ret : Option Int) :
    ∃ out parts, site.finish (site.raiseError depth) (t, .raiseHTTPError ID ret) = some out ∧
      out.1.sent = t.sent ++ parts ∧ ∀ part ∈ parts, part.isPlain := by
  obtain ⟨parts, hsent, hparts⟩ := hardError_plain t
  refine ⟨(t.sendHTTPhardError500.1, ret.getD t.sendHTTPhardError500.2), parts, ?_, hsent, hparts⟩
  rw [Site.finish, raiseError_again hlast, Option.map_some]

theorem sendAuth_plain {t : Thread} (hlast : t.lastError ≠ 0) (depth : Nat) :
    ∃ out parts, site.sendAuth (site.raiseError depth) t = some out ∧ out.1.sent = t.sent ++ parts ∧
      ∀ part ∈ parts, part.isPlain := by
  unfold Site.sendAuth
  split_ifs
  · obtain ⟨parts, hsent, hparts⟩ := hardError_plain t
    exact ⟨_, parts, raiseError_again hlast depth 401, hsent, hparts⟩
  · unfold Site.requestAuthorization
    dsimp only
    split
    · exact ⟨_, _, rfl, rfl, by simp [Sent.isPlain]⟩
    · exact ⟨_, _, rfl, rfl, by simp [Sent.isPlain]⟩
    · obtain ⟨parts, hsent, hparts⟩ := hardError_plain ({ t with nTries := t.nTries + 1 }.status 401)
      exact ⟨_, parts, raiseError_again (t := { t with nTries := t.nTries + 1 }.status 401) hlast depth 501, hsent, hparts⟩

theorem contentRange_eq_none {range : HttpRange} {size : Nat} : range.contentRange size = none ↔ range = ⟨0, 0⟩ := by
  unfold HttpRange.contentRange
  obtain ⟨first, last⟩ := range
  split_ifs with h
  · simp only [false_iff, HttpRange.mk.injEq]
    rintro ⟨rfl, rfl⟩
    simp at h
  · simp only [ne_eq, not_or, not_not] at h
    simp [h.1, h.2]

theorem response_status (t : Thread) (f : OpenFile) (mtime : Nat) :
    (HttpFile.response store site.request t f mtime).httpStatus =
      if (site.request.range.contentRange f.size).isSome then 206 else t.response.httpStatus := by
  have hset : ∀ (r : HttpResponseHeader) (name value : Str), (r.setValue name value).httpStatus = r.httpStatus := by
    intro r name value
    unfold ResponseHeader.HttpResponseHeader.setValue
    split_ifs <;> rfl
  have hput : ∀ (r : HttpResponseHeader) (name value : Str), (r.put name value).httpStatus = r.httpStatus :=
    fun _ _ _ => rfl
  have hremove : ∀ (r : HttpResponseHeader) (name : Str), (r.remove name).httpStatus = r.httpStatus := fun _ _ => rfl
  unfold HttpFile.response
  cases store.getName t.mime <;> cases site.request.range.contentRange f.size <;>
    dsimp only <;> split_ifs <;>
    simp_all only [Option.isSome_none, Option.isSome_some, Bool.false_eq_true, not_true_eq_false]

theorem sendFile_sent (t : Thread) (hfresh : t.headerSent = false) (f : OpenFile) (mtime : Nat) (onlyHeader : Bool) :
    ∃ rest, (HttpFile.sendFile store site.request t f mtime onlyHeader).1.sent =
        t.sent ++ .header (HttpFile.response store site.request t f mtime) :: rest ∧
      (∀ part ∈ rest, part.isPlain) ∧
      ((HttpFile.sendFile store site.request t f mtime onlyHeader).2 = .done RET_OK ∨
        (HttpFile.sendFile store site.request t f mtime onlyHeader).2 = .raiseHTTPError 500 none) := by
  unfold HttpFile.sendFile
  dsimp only
  have hheader : ({ t with response := HttpFile.response store site.request t f mtime }.sendHeader).sent =
      t.sent ++ [.header (HttpFile.response store site.request t f mtime)] :=
    sendHeader_fresh (t := { t with response := HttpFile.response store site.request t f mtime }) hfresh
  have hbody := sendBody_sent ({ t with response := HttpFile.response store site.request t f mtime }.sendHeader)
    (store.transfer f site.request.range).1
  rw [hheader, List.append_assoc] at hbody
  split_ifs
  · exact ⟨[], hheader, by simp, .inl rfl⟩
  · exact ⟨_, hbody, by split_ifs <;> simp [Sent.isPlain], .inr rfl⟩
  · exact ⟨_, hbody, by split_ifs <;> simp [Sent.isPlain], .inl rfl⟩

theorem sendFile_finish {t : Thread} (hlast : t.lastError ≠ 0) (hfresh : t.headerSent = false) (f : OpenFile)
    (mtime : Nat) (onlyHeader : Bool) (depth : Nat) :
    ∃ out rest, site.finish (site.raiseError depth) (HttpFile.sendFile store site.request t f mtime onlyHeader) = some out ∧
      out.1.sent = t.sent ++ .header (HttpFile.response store site.request t f mtime) :: rest ∧
      ∀ part ∈ rest, part.isPlain := by
  obtain ⟨rest, hsent, hrest, hcall⟩ := @sendFile_sent site store t hfresh f mtime onlyHeader
  have hkeeps := HttpFile.keeps_sendFile store site.request t f mtime onlyHeader
  generalize HttpFile.sendFile store site.request t f mtime onlyHeader = sent at hsent hcall hkeeps ⊢
  obtain ⟨t', call⟩ := sent
  rcases hcall with rfl | rfl
  · exact ⟨_, rest, rfl, hsent, hrest⟩
  · obtain ⟨out, parts, hout, hagain, hparts⟩ := @finish_again site t' (hkeeps.lastError ▸ hlast) depth 500 none
    refine ⟨out, rest ++ parts, hout, ?_, fun part h => (List.mem_append.mp h).elim (hrest part) (hparts part)⟩
    dsimp only at hsent
    rw [hagain, hsent, List.append_assoc, List.cons_append]

/-- What comes behind a file's header has no status. -/
theorem header_told_iff {rest : List Sent} (hrest : ∀ part ∈ rest, part.isPlain) {header : HttpResponseHeader} :
    (∃ response : HttpResponseHeader, .header response ∈ .header header :: rest ∧ response.httpStatus = ID) ↔
      header.httpStatus = ID := by
  constructor
  · rintro ⟨response, hmem, heq⟩
    rcases List.mem_cons.mp hmem with hfirst | hlater
    · cases hfirst
      exact heq
    · cases hrest _ hlater
  · exact fun h => ⟨header, List.mem_cons_self, h⟩

theorem plain_kept {parts : List Sent} (hplain : ∀ part ∈ parts, part.isPlain) :
    (∀ path content, .stored path content ∉ parts) ∧ ∀ path, .deleted path ∉ parts := by
  constructor
  · intro path content hmem
    cases hplain _ hmem
  · intro path hmem
    cases hplain _ hmem

/-- The file is opened for writing in the middle of an error, too. -/
theorem putFile_again {t : Thread} (hlast : t.lastError ≠ 0) (depth : Nat) :
    ∃ out parts, site.finish (site.raiseError depth) (HttpFile.putFile store site.request t) = some out ∧
      out.1.sent = t.sent ++ parts ∧ (∀ path, .deleted path ∉ parts) ∧
      ((∃ content, .stored t.filenamePath content ∈ parts) ↔
        t.permissions.has permissionWrite = true ∧ store.writes t.filenamePath = true) := by
  obtain ⟨response, -, hresponse⟩ := keepAlive_eq t (isKeepAlive site.request)
  unfold HttpFile.putFile
  rw [hresponse]
  dsimp only
  by_cases hwrite : t.permissions.has permissionWrite = true
  · rw [hwrite, if_neg (by simp)]
    by_cases hwrites : store.writes t.filenamePath = true
    · rw [hwrites, if_neg (by simp)]
      generalize Put.putFile true store.realLength site.request.range.rangeByteBegin _ store.inputData = written
      let stored := { t with response }.put (.stored t.filenamePath (written.2.getD []))
      obtain ⟨out, parts, hout, hsent, hplain⟩ := @finish_again site stored hlast depth written.1
        (if written.1 = 500 then none else some RET_OK)
      have hstored : stored.sent = t.sent ++ [.stored t.filenamePath (written.2.getD [])] := rfl
      refine ⟨out, .stored t.filenamePath (written.2.getD []) :: parts, hout, ?_, ?_, ?_⟩
      · rw [hsent, hstored, List.append_assoc, List.singleton_append]
      · intro path hmem
        rcases List.mem_cons.mp hmem with hfirst | hlater
        · cases hfirst
        · exact (plain_kept hplain).2 path hlater
      · exact iff_of_true ⟨_, List.mem_cons_self⟩ ⟨rfl, rfl⟩
    · rw [Bool.not_eq_true] at hwrites
      rw [hwrites, Bool.not_false, if_pos rfl]
      obtain ⟨out, parts, hout, hsent, hplain⟩ := @finish_again site { t with response } hlast depth 500 none
      obtain ⟨hstored, hdeleted⟩ := plain_kept hplain
      exact ⟨out, parts, hout, hsent, hdeleted, iff_of_false (fun ⟨content, h⟩ => hstored _ content h) (by simp)⟩
  · rw [Bool.not_eq_true] at hwrite
    rw [hwrite, Bool.not_false, if_pos rfl]
    obtain ⟨out, parts, hout, hsent, hplain⟩ := @sendAuth_plain site { t with response } hlast depth
    obtain ⟨hstored, hdeleted⟩ := plain_kept hplain
    exact ⟨out, parts, hout, hsent, hdeleted, iff_of_false (fun ⟨content, h⟩ => hstored _ content h) (by simp)⟩

theorem deleteFile_again {t : Thread} (hlast : t.lastError ≠ 0) (hexists : nodeExists store.fs t.filenamePath = true)
    (depth : Nat) :
    ∃ out parts, site.finish (site.raiseError depth) (HttpFile.deleteFile store t) = some out ∧
      out.1.sent = t.sent ++ parts ∧ (∀ path content, .stored path content ∉ parts) ∧
      (.deleted t.filenamePath ∈ parts ↔
        t.permissions.has permissionDelete = true ∧ store.deletes t.filenamePath = true) := by
  unfold HttpFile.deleteFile
  rw [hexists]
  by_cases hdelete : t.permissions.has permissionDelete = true
  · rw [hdelete, if_neg (by simp), if_neg (by simp)]
    by_cases hdeletes : store.deletes t.filenamePath = true
    · rw [hdeletes, if_neg (by simp)]
      obtain ⟨out, parts, hout, hsent, hplain⟩ := @finish_again site (t.put (.deleted t.filenamePath)) hlast depth 202 none
      have hdeleted : (t.put (.deleted t.filenamePath)).sent = t.sent ++ [.deleted t.filenamePath] := rfl
      refine ⟨out, .deleted t.filenamePath :: parts, hout, ?_, ?_, ?_⟩
      · rw [hsent, hdeleted, List.append_assoc, List.singleton_append]
      · intro path content hmem
        rcases List.mem_cons.mp hmem with hfirst | hlater
        · cases hfirst
        · exact (plain_kept hplain).1 path content hlater
      · exact iff_of_true List.mem_cons_self ⟨rfl, rfl⟩
    · rw [Bool.not_eq_true] at hdeletes
      rw [hdeletes, Bool.not_false, if_pos rfl]
      obtain ⟨out, parts, hout, hsent, hplain⟩ := @finish_again site t hlast depth 500 none
      obtain ⟨hstored, hdeleted⟩ := plain_kept hplain
      exact ⟨out, parts, hout, hsent, hstored, iff_of_false (hdeleted _) (by simp)⟩
  · rw [Bool.not_eq_true] at hdelete
    rw [hdelete, Bool.not_false, if_pos rfl]
    obtain ⟨out, parts, hout, hsent, hplain⟩ := @sendAuth_plain site t hlast depth
    obtain ⟨hstored, hdeleted⟩ := plain_kept hplain
    exact ⟨out, parts, hout, hsent, hstored, iff_of_false (hdeleted _) (by simp)⟩

/-- The other methods only send. -/
theorem send_again {t : Thread} (hlast : t.lastError ≠ 0) (hfresh : t.headerSent = false)
    (hput : site.request.cmd ≠ ascii "PUT") (hdelete : site.request.cmd ≠ ascii "DELETE") (path : Str) (onlyHeader : Bool)
    (depth : Nat) :
    ∃ out parts, site.finish (site.raiseError depth) (HttpFile.send store site.request t path onlyHeader) = some out ∧
      out.1.sent = t.sent ++ parts ∧ (∀ path content, .stored path content ∉ parts) ∧ ∀ path, .deleted path ∉ parts := by
  have hagain : ∀ (t : Thread) (ID : Nat), t.lastError ≠ 0 →
      ∃ out parts, site.finish (site.raiseError depth) (t, .raiseHTTPError ID none) = some out ∧
        out.1.sent = t.sent ++ parts ∧ (∀ path content, .stored path content ∉ parts) ∧ ∀ path, .deleted path ∉ parts := by
    intro t ID hlast
    obtain ⟨out, parts, hout, hsent, hplain⟩ := @finish_again site t hlast depth ID none
    exact ⟨out, parts, hout, hsent, plain_kept hplain⟩
  unfold HttpFile.send
  rw [if_neg hput, if_neg hdelete]
  split_ifs
  · obtain ⟨out, parts, hout, hsent, hplain⟩ := @sendAuth_plain site t hlast depth
    exact ⟨out, parts, hout, hsent, plain_kept hplain⟩
  · exact hagain t 404 hlast
  · cases store.lastModTime t.filenamePath with
    | none => exact hagain t 500 hlast
    | some mtime =>
      dsimp only
      split_ifs
      · exact ⟨_, [.notModified site.keepAlive], rfl, rfl, by simp, by simp⟩
      · cases store.openFile path with
        | none => exact hagain (t.setValue "last-modified" (store.getRFC822GMTTime mtime)) 500 hlast
        | some f =>
          dsimp only
          split_ifs
          · exact ⟨_, [.notModified site.keepAlive], rfl, rfl, by simp, by simp⟩
          · obtain ⟨out, rest, hout, hsent, hrest⟩ := @sendFile_finish site store
              (t.setValue "last-modified" (store.getRFC822GMTTime mtime)) hlast hfresh f mtime onlyHeader depth
            refine ⟨out, _, hout, hsent, fun path content hmem => ?_, fun path hmem => ?_⟩
            · exact (plain_kept hrest).1 path content ((List.mem_cons.mp hmem).resolve_left nofun)
            · exact (plain_kept hrest).2 path ((List.mem_cons.mp hmem).resolve_left nofun)

end

end MyServer.Http
