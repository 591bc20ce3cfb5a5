/-
The client of a backend that is driven by addresses alone: an operation on a
collection is a request for the address

    root/operation/collection/document...

with the documents as compact JSON, the whole percent-encoded.

The backend is a line of replies that wait to be fetched. A request is
recorded, then takes the reply at the head of the line, or fails where there
is none.
-/
import QueryForm.Backend.Settings
import QueryForm.Draft
import QueryForm.Json.Reader
import QueryForm.Json.Writer
import QueryForm.Text.Percent

namespace QueryForm.Backend

/-- What a backend can be asked to do. -/
inductive Operation where
  | insert
  | find
  | update
  | delete
  | empty
  | drop
deriving DecidableEq, Repr

namespace Operation

/-- Every operation. -/
def all : List Operation := [.insert, .find, .update, .delete, .empty, .drop]

/-- The name of an operation in an address. -/
def name : Operation → String
  | insert => "insert"
  | find => "find"
  | update => "update"
  | delete => "delete"
  | empty => "empty"
  | drop => "drop"

/-- The reply is read as JSON. -/
def returnsJson : Operation → Bool
  | find => true
  | _ => false

end Operation

/-- What goes wrong on the way to a backend and back. -/
inductive Failure where
  | settings (error : SettingsError)
  | emptyCollection
  | noReply (url : String)
  | notJson (url : String)
deriving DecidableEq, Repr

/-- What is said of wrong settings. -/
def SettingsError.message (e : SettingsError) : String :=
  "invalid client configuration: " ++
    match e with
    | emptyBaseUri => "base URI is empty"
    | zeroTimeout => "timeout must be positive"
    | badTimeout raw =>
      Settings.timeoutVariable ++ " must be whole seconds, got '" ++ raw ++ "'"

/-- What is said of a failure. -/
def Failure.message : Failure → String
  | settings e => e.message
  | emptyCollection => "collection name must not be empty"
  | noReply url => "request to " ++ url ++ " failed: no reply queued"
  | notJson url => "response from " ++ url ++ " is not valid JSON"

/-- A reply of the backend. -/
structure Reply where
  status : Nat
  body : String
deriving DecidableEq, Repr

/-- The reply of a request that went well. -/
def Reply.ok (body : String) : Reply := ⟨200, body⟩

/-- A reply with a status that reports success. -/
def Reply.isSuccess (r : Reply) : Bool :=
  200 ≤ r.status && r.status < 300

/-! ## Addresses -/

/-- The address of an operation on a collection, before it is encoded. -/
def plainAddress (s : Settings) (op : Operation) (collection : String) (segments : List String) :
    String :=
  String.ofList (s.root ++ '/' :: (op.name.toList ++ '/' :: (collection.toList ++
    segments.flatMap fun segment => '/' :: segment.toList)))

/-- The encoded address of an operation; a collection has to have a name. -/
def address (s : Settings) (op : Operation) (collection : String) (segments : List String) :
    Except Failure String :=
  if collection = "" then .error .emptyCollection
  else .ok (Text.percentEncode (plainAddress s op collection segments))

/-- A document as JSON, `null` where there is none. -/
def documentOrNull (doc : Option Query) : Json :=
  (doc.map Json.object).getD .null

/-- A filter as JSON, matching everything where there is none. -/
def filterOrEmpty (filter : Option Query) : Json :=
  (filter.map Json.object).getD (.object [])

/-- The document that sets the members of another. -/
def setDocument (data : Option Query) : Json :=
  .object [("$set", documentOrNull data)]

/-! ## Requests -/

/-- A request for an operation, with the documents that it takes. -/
inductive Request where
  | insert (doc : Option Query)
  | find (filter : Option Query)
  | update (filter data : Option Query)
  | delete (filter : Option Query)
  | empty
  | drop

namespace Request

/-- The operation that is asked for. -/
def operation : Request → Operation
  | insert _ => .insert
  | find _ => .find
  | update .. => .update
  | delete _ => .delete
  | empty => .empty
  | drop => .drop

/-- The documents of a request, in the order of the address. -/
def documents : Request → List Json
  | insert doc => [documentOrNull doc]
  | find filter => [filterOrEmpty filter]
  | update filter data => [documentOrNull filter, setDocument data]
  | delete filter => [filterOrEmpty filter]
  | empty => []
  | drop => []

/-- The address of a request. -/
def address (r : Request) (s : Settings) (collection : String) : Except Failure String :=
  Backend.address s r.operation collection (r.documents.map Json.text)

end Request

/-- What a request comes to. -/
inductive Response where
  | reply (r : Reply)
  | json (body : Json)

/-- A client: its settings, the replies that wait, and the addresses requested so far. -/
structure Client where
  settings : Settings
  waiting : List Reply
  sent : List String

namespace Client

/-- A client with valid settings. -/
def open? (settings : Settings) (replies : List Reply) : Except Failure Client :=
  match settings.fault? with
  | some fault => .error (.settings fault)
  | none => .ok ⟨settings, replies, []⟩

/-- Puts a reply at the end of the line. -/
def queue (c : Client) (r : Reply) : Client :=
  { c with waiting := c.waiting ++ [r] }

/-- Requests an address: it is recorded, and the first reply in line is taken. -/
def get (c : Client) (url : String) : Client × Except Failure Reply :=
  let sent := c.sent ++ [url]
  match c.waiting with
  | [] => ({ c with sent }, .error (.noReply url))
  | r :: rest => ({ c with sent, waiting := rest }, .ok r)

/-- What a reply to an operation comes to: the body of a search is JSON, whatever the status. -/
def interpret (op : Operation) (url : String) (r : Reply) : Except Failure Response :=
  if op.returnsJson then
    match Json.ofText? Json.depthLimit r.body with
    | some body => .ok (.json body)
    | none => .error (.notJson url)
  else .ok (.reply r)

/-- Makes a request about a collection. -/
def send (c : Client) (collection : String) (request : Request) :
    Client × Except Failure Response :=
  match request.address c.settings collection with
  | .error e => (c, .error e)
  | .ok url =>
    let (c, reply) := c.get url
    (c, reply >>= interpret request.operation url)

end Client

end QueryForm.Backend
