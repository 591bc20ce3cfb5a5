/-
What becomes of the replies that wait for a client.

`Client.replies_conserved`: whatever is queued and requested, and in
whatever order, every request about a named collection is recorded once and
takes the first reply in line if there is one, and nothing else takes any.
So the replies fetched so far, with those that still wait behind them, are
the replies queued so far.

A reply is given to the caller as it is, or for a search as the value of its
body. `Json.SaidBy` tells of that in terms of the grammar of JSON.
-/
import QueryForm.Backend.Client
import QueryForm.Proofs.Json.RoundTrip

namespace QueryForm.Backend

/-- What is done to a client: a reply is queued, or a request is made about a collection. -/
inductive Move where
  | queue (r : Reply)
  | send (collection : String) (request : Request)

namespace Move

/-- The replies that a move queues. -/
def queued : Move → List Reply
  | queue r => [r]
  | send .. => []

/-- The addresses that a move requests: that of its request, if the collection has a name. -/
def requested (s : Settings) : Move → List String
  | queue _ => []
  | send collection request => (request.address s collection).toOption.toList

end Move

/-- What the caller of a request is given for a reply to it. Only a search reads the reply: it is
given what the body says, or told where a body came from that says nothing. -/
inductive Answers (url : String) (r : Reply) : Operation → Except Failure Response → Prop
  | reply {o : Operation} (notFind : o ≠ .find) : Answers url r o (.ok (.reply r))
  | json {value : Json} (said : Json.SaidBy Json.depthLimit value r.body) :
    Answers url r .find (.ok (.json value))
  | notJson (unsaid : ∀ value, ¬ Json.SaidBy Json.depthLimit value r.body) :
    Answers url r .find (.error (.notJson url))

namespace Client

/-- A client after a move. -/
def move (c : Client) : Move → Client
  | .queue r => c.queue r
  | .send collection request => (c.send collection request).1

/-- A client after moves, one after the other. -/
def after (c : Client) (moves : List Move) : Client :=
  moves.foldl move c

/-- The reply that a move fetches, if any. -/
def fetched (c : Client) : Move → List Reply
  | .queue _ => []
  | .send collection request =>
    match request.address c.settings collection with
    | .error _ => []
    | .ok url => (c.get url).2.toOption.toList

/-- The replies that moves fetch, in order. -/
def fetchedIn (c : Client) : List Move → List Reply
  | [] => []
  | m :: moves => c.fetched m ++ (c.move m).fetchedIn moves

/-! ## One request -/

theorem send_of_error {c : Client} {collection : String} {request : Request} {e : Failure}
    (h : request.address c.settings collection = .error e) :
    c.send collection request = (c, .error e) := by
  rw [send, h]

theorem send_of_no_reply {c : Client} {collection url : String} {request : Request}
    (h : request.address c.settings collection = .ok url) (hw : c.waiting = []) :
    c.send collection request = ({ c with sent := c.sent ++ [url] }, .error (.noReply url)) := by
  simp only [send, h, get, hw]
  rfl

theorem send_of_reply {c : Client} {collection url : String} {request : Request} {r : Reply}
    {rest : List Reply} (h : request.address c.settings collection = .ok url)
    (hw : c.waiting = r :: rest) :
    c.send collection request =
      ({ c with sent := c.sent ++ [url], waiting := rest },
        interpret request.operation url r) := by
  simp only [send, h, get, hw]
  rfl

theorem answers_interpret (o : Operation) (url : String) (r : Reply) :
    Answers url r o (interpret o url r) := by
  by_cases ho : o = .find
  · subst ho
    simp only [interpret, Operation.returnsJson, if_true]
    split
    · next body hbody => exact .json (Json.ofText?_eq_some_iff.mp hbody)
    · next hnone =>
      refine .notJson fun value hsaid => ?_
      rw [Json.ofText?_eq_some_iff.mpr hsaid] at hnone
      cases hnone
  · have : o.returnsJson = false := by cases o <;> first | rfl | exact absurd rfl ho
    rw [interpret, this]
    exact .reply ho

/-- A request about a collection with a name has the address of its operation and documents. -/
theorem address_of_ne {collection : String} (h : collection ≠ "") (s : Settings)
    (request : Request) : ∃ url, request.address s collection = .ok url :=
  ⟨_, if_neg h⟩

/-! ## One move -/

/-- What a move does: it queues a reply, has no address to request, or requests one. -/
theorem move_cases (c : Client) (m : Move) :
    (∃ r, m = .queue r) ∨
      (∃ collection request e, m = .send collection request ∧
        request.address c.settings collection = .error e) ∨
      ∃ collection request url, m = .send collection request ∧
        request.address c.settings collection = .ok url := by
  cases m with
  | queue r => exact .inl ⟨r, rfl⟩
  | send collection request =>
    cases h : request.address c.settings collection with
    | error e => exact .inr (.inl ⟨_, _, e, rfl, h⟩)
    | ok url => exact .inr (.inr ⟨_, _, url, rfl, h⟩)

theorem move_spec (c : Client) (m : Move) :
    (c.move m).settings = c.settings ∧
      (c.move m).sent = c.sent ++ m.requested c.settings ∧
      c.fetched m ++ (c.move m).waiting = c.waiting ++ m.queued := by
  obtain ⟨r, rfl⟩ | ⟨collection, request, e, rfl, h⟩ | ⟨collection, request, url, rfl, h⟩ :=
    c.move_cases m
  · exact ⟨rfl, (List.append_nil _).symm, rfl⟩
  · simp [move, send_of_error h, fetched, Move.requested, Move.queued, h, Except.toOption]
  · cases hw : c.waiting with
    | nil =>
      simp [move, send_of_no_reply h hw, fetched, Move.requested, Move.queued, h, get, hw,
        Except.toOption]
    | cons r rest =>
      simp [move, send_of_reply h hw, fetched, Move.requested, Move.queued, h, get, hw,
        Except.toOption]

/-! ## Runs -/

theorem after_spec (c : Client) (moves : List Move) :
    (c.after moves).settings = c.settings ∧
      (c.after moves).sent = c.sent ++ moves.flatMap (Move.requested c.settings) ∧
      c.fetchedIn moves ++ (c.after moves).waiting = c.waiting ++ moves.flatMap Move.queued := by
  induction moves generalizing c with
  | nil => simp [after, fetchedIn]
  | cons m moves ih =>
    obtain ⟨hsettings, hsent, hwaiting⟩ := c.move_spec m
    obtain ⟨hsettings', hsent', hwaiting'⟩ := ih (c.move m)
    refine ⟨hsettings'.trans hsettings, ?_, ?_⟩
    · change ((c.move m).after moves).sent = _
      rw [hsent', hsent, hsettings, List.flatMap_cons, List.append_assoc]
    · change c.fetched m ++ (c.move m).fetchedIn moves ++ ((c.move m).after moves).waiting = _
      rw [List.append_assoc, hwaiting', ← List.append_assoc, hwaiting, List.flatMap_cons,
        List.append_assoc]

/-- **Replies are conserved.** After any moves a client has its settings, has recorded the address
of each request about a named collection in order, and the replies fetched, with those that still
wait behind them, are those that waited at first and those queued since. The next request, if it
names no collection, fails and changes nothing. If it names one, its address is recorded; without a
reply it fails naming the address, and otherwise it takes the first reply in line, which alone
decides what the caller is given. -/
theorem replies_conserved (c : Client) (moves : List Move) :
    let d := c.after moves
    (d.settings = c.settings ∧
      d.sent = c.sent ++ moves.flatMap (Move.requested c.settings) ∧
      c.fetchedIn moves ++ d.waiting = c.waiting ++ moves.flatMap Move.queued) ∧
    (∀ request, d.send "" request = (d, .error .emptyCollection) ∧
      d.fetched (.send "" request) = []) ∧
    ∀ collection request, collection ≠ "" → ∃ url,
      Backend.address c.settings request.operation collection
        (request.documents.map Json.text) = .ok url ∧
      (d.waiting = [] → d.send collection request =
        ({ d with sent := d.sent ++ [url] }, .error (.noReply url))) ∧
      ∀ r rest, d.waiting = r :: rest →
        (d.send collection request).1 = { d with sent := d.sent ++ [url], waiting := rest } ∧
        d.fetched (.send collection request) = [r] ∧
        Answers url r request.operation (d.send collection request).2 := by
  intro d
  have hd := c.after_spec moves
  refine ⟨hd, fun request => ⟨send_of_error rfl, rfl⟩, fun collection request hne => ?_⟩
  obtain ⟨url, hurl⟩ := address_of_ne hne c.settings request
  have hurl' : request.address d.settings collection = .ok url := by rw [hd.1, hurl]
  refine ⟨url, hurl, send_of_no_reply hurl', fun r rest hw => ?_⟩
  rw [send_of_reply hurl' hw]
  refine ⟨rfl, ?_, answers_interpret _ _ _⟩
  simp [fetched, hurl', get, hw, Except.toOption]

/-- A reply of an error is given as it is. -/
theorem replies_conserved_boom :
    (((⟨{}, [], []⟩ : Client).after [.queue ⟨500, "boom"⟩, .send "" .empty]).send "users" .drop).2 =
      .ok (.reply ⟨500, "boom"⟩) := by
  obtain ⟨url, -, -, h⟩ :=
    (replies_conserved ⟨{}, [], []⟩ [.queue ⟨500, "boom"⟩, .send "" .empty]).2.2 "users" .drop
      (by decide)
  obtain ⟨-, -, hanswer⟩ := h ⟨500, "boom"⟩ [] rfl
  generalize Prod.snd _ = result at hanswer ⊢
  cases hanswer
  rfl

end Client

end QueryForm.Backend
