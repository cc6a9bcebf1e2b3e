import Latypus.Engine.Ownership

/-! The connection handlers of `http_server`: the state handlers that `handle_connection` calls,
the actions of the messages, the timeouts and `handle_accept`. Statistics, logging and the
buffers are left out; what the handlers read off the latter is an answer. -/

namespace Latypus.HttpServer
open Engine

def dispatchConnection (t : Thread) (c : Slot) : Prog Unit :=
  forwardConnection t c .router .routerProcessHeaders

def dispatchConnectionTls (t : Thread) (c : Slot) : Prog Unit :=
  forwardConnection t c .router .routerTlsHandshake

def workConnection (t : Thread) (c : Slot) : Prog Unit :=
  forwardConnection t c .worker .workerProcessRequest

def keepaliveConnection (t : Thread) (c : Slot) : Prog Unit :=
  forwardConnection t c .keepalive .keepaliveWaitConnection

def lingerConnection (t : Thread) (c : Slot) : Prog Unit :=
  forwardConnection t c .keepalive .lingerReadConnection

/-- `populate_response_headers`, which aborts the connection by itself and returns all the same. -/
def populateResponseHeaders (t : Thread) (c : Slot) : Prog Int := do
  if ← test .populateResponse c then
    pure ()
  else
    abortConnection c
  let length ← issue (.responseToBuffer c)
  if length < 0 then
    removeEvents t c
    abortConnection c
    return length
  else
    return length

/-! ### State handlers -/

def handleStateTlsHandshake (t : Thread) (c : Slot) : Prog Unit := do
  match ← doHandshake c with
  | .none => dispatchConnection t c
  | .wantWrite => addEvents t c pollEventOut
  | .wantRead => addEvents t c pollEventIn
  | .other =>
    removeEvents t c
    closeConnection c

def handleStateClientRequest (t : Thread) (c : Slot) : Prog Unit := do
  if ← test .bytesWritable c then
    match ← transfer .bufferRead c with
    | none =>
      removeEvents t c
      abortConnection c
    | some size =>
      if size = 0 ∧ (← test .backIsZero c) then
        removeEvents t c
        closeConnection c
      else
        if ← test .isFinished c then
          -- `process_request_headers` fails with the sanitizer
          if ← test .sanitizePath c then
            removeEvents t c
            workConnection t c
          else
            removeEvents t c
            abortConnection c
        else
          if ← test .hasError c then
            removeEvents t c
            abortConnection c
  else
    removeEvents t c
    abortConnection c

/-- The state of a connection whose response is ready. -/
def setResponseState (c : Slot) : Prog Unit := do
  if ← test .responseHasBody c then
    setState c .serverBody
  else
    setState c .serverResponse

def handleStateClientBody (t : Thread) (c : Slot) : Prog Unit := do
  match ← transfer .readRequestBody c with
  | none =>
    removeEvents t c
    abortConnection c
  | some size =>
    if size = 0 then
      let _ ← populateResponseHeaders t c
      setResponseState c
      addEvents t c pollEventOut

/-- The end of a request, in both states that send a response. -/
def finishResponse (t : Thread) (c : Slot) : Prog Unit := do
  if ← test .endRequest c then
    if ← test .connectionClose c then
      removeEvents t c
      closeConnection c
    else
      removeEvents t c
      keepaliveConnection t c
  else
    removeEvents t c
    abortConnection c

/-- Write the buffer to the socket, and finish when nothing is left of it. -/
def writeBuffer (t : Thread) (c : Slot) : Prog Unit := do
  if ← test .bytesReadable c then
    match ← transfer .bufferWrite c with
    | none =>
      removeEvents t c
      abortConnection c
    | some size => if size = 0 then finishResponse t c
  else
    finishResponse t c

def handleStateServerResponse (t : Thread) (c : Slot) : Prog Unit := writeBuffer t c

def handleStateServerBody (t : Thread) (c : Slot) : Prog Unit := do
  if ← test .responseHasBody c then
    match ← transfer .writeResponseBody c with
    | none =>
      removeEvents t c
      abortConnection c
    | some _ => writeBuffer t c
  else
    writeBuffer t c

def handleStateWaiting (t : Thread) (c : Slot) : Prog Unit := do
  removeEvents t c
  dispatchConnection t c

def handleStateLingeringClose (t : Thread) (c : Slot) : Prog Unit := do
  match ← transfer .bufferRead c with
  | none =>
    removeEvents t c
    closeConnection c
  | some _ => return

/-! ### Messages -/

def routerTlsHandshake (t : Thread) (c : Slot) : Prog Unit := do
  setState c .tlsHandshake
  addEvents t c pollEventIn

def routerProcessHeaders (t : Thread) (c : Slot) : Prog Unit := do
  setState c .clientRequest
  addEvents t c pollEventIn

def keepaliveWaitConnection (t : Thread) (c : Slot) : Prog Unit := do
  setState c .waiting
  addEvents t c pollEventIn

def workerProcessRequest (t : Thread) (c : Slot) : Prog Unit := do
  if ← test .handleRequest c then
    if ← test .requestHasBody c then
      setState c .clientBody
      addEvents t c pollEventIn
    else
      let length ← populateResponseHeaders t c
      if 0 < length then
        setResponseState c
        addEvents t c pollEventOut
      else
        abortConnection c
  else
    abortConnection c

def lingerReadConnection (t : Thread) (c : Slot) : Prog Unit := do
  setState c .lingeringClose
  let _ ← issue (.startLingeringClose c)
  addEvents t c pollEventIn

def handleMessage (t : Thread) (msg : Message) : Prog Unit :=
  match msg.action with
  | .routerTlsHandshake => routerTlsHandshake t msg.conn
  | .routerProcessHeaders => routerProcessHeaders t msg.conn
  | .keepaliveWaitConnection => keepaliveWaitConnection t msg.conn
  | .workerProcessRequest => workerProcessRequest t msg.conn
  | .lingerReadConnection => lingerReadConnection t msg.conn
  -- the actions of the client are not sent to the server's connections
  | _ => pure ()

/-! ### Events, timeouts and new connections -/

def handleConnection (t : Thread) (c : Slot) (revents : Nat) : Prog Unit := do
  if revents &&& pollEventHup ≠ 0 ∨ revents &&& pollEventErr ≠ 0 ∨
      revents &&& pollEventInvalid ≠ 0 then
    removeEvents t c
    closeConnection c
  else
    match ← getState c with
    -- the state without a callback
    | .free =>
      removeEvents t c
      abortConnection c
    | .tlsHandshake => handleStateTlsHandshake t c
    | .clientRequest => handleStateClientRequest t c
    | .clientBody => handleStateClientBody t c
    | .serverResponse => handleStateServerResponse t c
    | .serverBody => handleStateServerBody t c
    | .waiting => handleStateWaiting t c
    | .lingeringClose => handleStateLingeringClose t c

def timeoutConnection (t : Thread) (c : Slot) : Prog Unit := do
  match ← getState c with
  | .clientRequest | .clientBody | .serverResponse | .serverBody =>
    if ← test .connectionTimeout c then
      removeEvents t c
      lingerConnection t c
  | .lingeringClose =>
    if ← test .connectionTimeout c then
      removeEvents t c
      abortConnection c
  | .waiting =>
    if ← test .keepaliveTimeout c then
      removeEvents t c
      closeConnection c
  | .free | .tlsHandshake => return

/-- `handle_accept`, once around its loop. The descriptor is chosen where the connection takes it
over; until then `accept` has reserved it. -/
def handleAccept (t : Thread) : Prog Unit := do
  if ← issue .acceptReady then
    match ← newConnection with
    | none => call t .accept
    | some c =>
      let _ ← issue (.accept c)
      if ← test .listenIsTls c then
        dispatchConnectionTls t c
      else
        dispatchConnection t c
      call t .accept

def httpServer : Protocol where
  handleMessage := handleMessage
  handleConnection := handleConnection
  timeoutConnection := timeoutConnection
  handleAccept := some handleAccept
  submitRequest := none

end Latypus.HttpServer
