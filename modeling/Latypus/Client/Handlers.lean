import Latypus.Engine.Ownership

/-! The connection handlers of `http_client`, and `submit_request`. A connection keeps the queue
of the requests that wait for it, and the front of the queue is the one it works on; a caller of
`submit_request` joins a queue or takes a free connection, and then runs what it forwards under
the name of a thread that has the connect mask. -/

namespace Latypus.HttpClient
open Engine

def processConnection (t : Thread) (c : Slot) : Prog Unit :=
  forwardConnection t c .clientWorker .processNextRequest

def processConnectionTls (t : Thread) (c : Slot) : Prog Unit :=
  forwardConnection t c .clientWorker .processTlsHandshake

/-- `populate_request_headers`, which aborts the connection by itself and returns all the same. -/
def populateRequestHeaders (t : Thread) (c : Slot) (currentRequest : Request) : Prog Int := do
  if ← test .populateRequest c then
    pure ()
  else
    abortConnection c
  let length ← issue (.requestToBuffer c currentRequest)
  if length < 0 then
    removeEvents t c
    abortConnection c
    return length
  else
    return length

/-! ### Messages -/

def processTlsHandshake (t : Thread) (c : Slot) : Prog Unit := do
  addEvents t c pollEventOut
  setState c .tlsHandshake

def connectHost (t : Thread) (c : Slot) : Prog Unit := do
  match ← urlRequestsFront c with
  | none => undefined
  | some currentRequest =>
    if ← test .lookup c then
      match currentRequest.url.scheme with
      | .https =>
        if ← test .sslCtx c then
          match ← issue (.connectToHost c currentRequest.target) with
          | .connected _ => processConnectionTls t c
          | _ => abortConnection c
        else
          -- the fatal exit for want of an SSL context
          undefined
      | .http =>
        match ← issue (.connectToHost c currentRequest.target) with
        | .connected _ => processConnection t c
        | _ => abortConnection c
      | .other => return
    else
      abortConnection c

def processNextRequest (t : Thread) (c : Slot) : Prog Unit := do
  match ← urlRequestsFront c with
  | none => undefined
  | some currentRequest =>
    setHandler c (some currentRequest)
    let length ← populateRequestHeaders t c currentRequest
    if 0 < length then
      setState c .clientRequest
      addEvents t c pollEventOut
    else
      abortConnection c

def handleMessage (t : Thread) (msg : Message) : Prog Unit :=
  match msg.action with
  | .connectHost => connectHost t msg.conn
  | .processTlsHandshake => processTlsHandshake t msg.conn
  | .processNextRequest => processNextRequest t msg.conn
  -- `keepalive_wait_connection` does nothing, and the rest are actions of the server
  | _ => pure ()

/-! ### State handlers -/

def handleStateTlsHandshake (t : Thread) (c : Slot) : Prog Unit := do
  match ← doHandshake c with
  | .none =>
    removeEvents t c
    processNextRequest t c
  | .wantWrite => addEvents t c pollEventOut
  | .wantRead => addEvents t c pollEventIn
  | .other =>
    removeEvents t c
    closeConnection c

/-- The request is sent, and the connection waits for the response. -/
def awaitResponse (t : Thread) (c : Slot) : Prog Unit := do
  removeEvents t c
  addEvents t c pollEventIn
  setState c .serverResponse

def handleStateClientRequest (t : Thread) (c : Slot) : Prog Unit := do
  match ← transfer .bufferWrite c with
  | none =>
    removeEvents t c
    abortConnection c
  | some _ =>
    if ← test .bytesReadable c then
      return
    else
      if ← test .requestHasBody c then
        setState c .clientBody
        call t (.connection c pollEventIn)
      else
        awaitResponse t c

def handleStateClientBody (t : Thread) (c : Slot) : Prog Unit := do
  match ← transfer .writeRequestBody c with
  | none =>
    removeEvents t c
    abortConnection c
  | some size => if size = 0 then awaitResponse t c

/-- The end of a request, in both states that read a response. -/
def finishRequest (t : Thread) (c : Slot) : Prog Unit := do
  if ← test .endRequest c then
    if ← test .connectionClose c then
      removeEvents t c
      closeConnection c
    else
      removeEvents t c
      setHandler c none
      if ← issue (.urlRequestsPopFront c) then
        processConnection t c
      else
        closeConnection c
  else
    removeEvents t c
    abortConnection c

def handleStateServerResponse (t : Thread) (c : Slot) : Prog Unit := do
  if ← test .bytesWritable c then
    match ← transfer .bufferRead c with
    | none =>
      removeEvents t c
      abortConnection c
    | some _ =>
      if ← test .isFinished c then
        if ← test .responseHasBody c then
          setState c .serverBody
          call t (.connection c pollEventIn)
        else
          finishRequest t c
      else
        if ← test .hasError c then
          removeEvents t c
          abortConnection c
  else
    removeEvents t c
    abortConnection c

def handleStateServerBody (t : Thread) (c : Slot) : Prog Unit := do
  match ← transfer .readResponseBody c with
  | none =>
    removeEvents t c
    abortConnection c
  | some size => if size = 0 then finishRequest t c

/-- `handle_state_waiting`, which leaves the connection in the pollset. -/
def handleStateWaiting (c : Slot) : Prog Unit := closeConnection c

/-! ### Events and timeouts -/

def handleConnection (t : Thread) (c : Slot) (revents : Nat) : Prog Unit := do
  if revents &&& pollEventHup ≠ 0 ∨ revents &&& pollEventErr ≠ 0 ∨
      revents &&& pollEventInvalid ≠ 0 then
    removeEvents t c
    closeConnection c
  else
    match ← getState c with
    | .tlsHandshake => handleStateTlsHandshake t c
    | .clientRequest => handleStateClientRequest t c
    | .clientBody => handleStateClientBody t c
    | .serverResponse => handleStateServerResponse t c
    | .serverBody => handleStateServerBody t c
    | .waiting => handleStateWaiting c
    -- the state without a callback
    | .free | .lingeringClose =>
      removeEvents t c
      abortConnection c

def timeoutConnection (t : Thread) (c : Slot) : Prog Unit := do
  match ← getState c with
  | .clientRequest | .clientBody | .serverResponse | .serverBody =>
    if ← test .connectionTimeout c then
      removeEvents t c
      abortConnection c
  | .waiting =>
    if ← test .keepaliveTimeout c then
      removeEvents t c
      closeConnection c
  | .free | .tlsHandshake | .lingeringClose => return

/-! ### The public interface -/

/-- The second half of `submit_request`: a new connection for the request. -/
def submitNew (urlReq : Request) : Prog Bool := do
  match ← issue (.getNewConnectionForUrl urlReq.url) with
  | none => return false
  | some c =>
    issue (.urlRequestsPushBack c urlReq)
    match ← issue (.engineChooseThread .clientConnect) with
    -- `forward_connection` through a null delegate
    | none => undefined
    | some t => forwardConnection t c .clientConnect .connectHost
    return true

def submitRequest (urlReq : Request) (maxRequestsPerConnection : Nat) : Prog Bool := do
  if urlReq.url.scheme = .other then
    return false
  else
    if 0 < maxRequestsPerConnection then
      match ← issue (.getExistingConnectionForUrl urlReq.url maxRequestsPerConnection) with
      | some c =>
        if ← issue (.urlRequestsPushIfActive c urlReq) then
          return true
        else
          submitNew urlReq
      | none => submitNew urlReq
    else
      submitNew urlReq

def httpClient : Protocol where
  handleMessage := handleMessage
  handleConnection := handleConnection
  timeoutConnection := timeoutConnection
  handleAccept := none
  submitRequest := some fun urlReq maxRequests => do
    let _ ← submitRequest urlReq maxRequests

end Latypus.HttpClient
