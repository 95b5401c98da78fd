import BrokeredCalls.Proofs.Network.Handover
import BrokeredCalls.Proofs.Network.Loops

/-!
How an execution ends and how a wait for a deferred call does. An execution leaves what its handler
answered as soon as it has it, and is not over before it left something. A wait looks at the list of
its own deferred call alone, and ends with a reply only if it took it from there.
-/

namespace BrokeredCalls.Network

open Node (Effect Execution Loop Routine Shared)
open Program (Asks Obeys)

variable {net : NodeId → Setup} {S : State} {s : Shared} {tr : Trail} {x w : TaskId} {n m : NodeId}
  {e : Execution} {service : String} {instant : Instant} {timeout : Duration} {key : String}
  {frame : Bytes} {k k' : Nat}

abbrev delivery (e : Execution) (reply : Reply) : Effect :=
  .broker e.broker (.pushReply e.replyKey reply.encode e.replyTtl)

def Answering (e : Execution) (tr : Trail) (r : Effect) : Prop :=
  ∀ h result, (⟨.invoke e.service h e.payload, result⟩ : Exchange Node.interface) ∈ tr →
    r = delivery e (.ofResult result)

def Delivered (e : Execution) (tr : Trail) : Prop :=
  ∃ reply a, (⟨delivery e reply, a⟩ : Exchange Node.interface) ∈ tr

def Waiting (service : String) (instant : Instant) (_tr : Trail) (r : Effect) : Prop :=
  ∀ b key timeout, r = .broker b (.popReply key timeout) →
    ∃ t, instant.fireTime = .ok t ∧ key = Key.deferredReply service t

theorem answering_routine (e : Execution) :
    Obeys ⟨Credible, Answering e⟩ (fun tr _ => Delivered e tr) [] e.routine := by
  have deliver {tr : Trail} {reply : Reply} (answering : Answering e tr (delivery e reply)) :
      Obeys ⟨Credible, Answering e⟩ (fun tr _ => Delivered e tr) tr
        (Node.onBroker e.broker (Broker.deliver e.replyKey reply e.replyTtl)) :=
    .ask answering fun a _ => ⟨reply, a, List.mem_cons_self⟩
  refine .bind (.bind (.request (fun h result run => by cases run) fun found _ => ?_))
  cases found.bind (·.handler) with
  | none => exact .done (deliver fun h result run => by cases List.mem_singleton.mp run)
  | some h =>
    refine .bind (.request (fun h result run => by cases List.mem_singleton.mp run)
      fun result _ => .done (deliver fun h' result' run => ?_))
    rcases List.mem_cons.mp run with new | old
    · cases new
      rfl
    · cases List.mem_singleton.mp old

theorem waiting_awaitScheduled (service : String) (instant : Instant) (timeout : Duration) :
    Obeys ⟨Credible, Waiting service instant⟩ Replied []
      (Node.awaitScheduled s service instant timeout).run := by
  cases time : instant.fireTime with
  | error e =>
    have invalid : ∀ text, e ≠ .remote text := by
      rintro text rfl
      unfold Instant.fireTime at time
      split at time
      · cases time
      · split at time <;> cases time
    have refused : (Node.awaitScheduled s service instant timeout).run = .done (.error e) := by
      simp only [Node.awaitScheduled, Node.fireTime, time]
      rfl
    rw [refused]
    exact .done (replied_error invalid)
  | ok t =>
    have known : (Node.awaitScheduled s service instant timeout).run =
        (do
          let b ← Node.brokerFor s service
          Node.onBrokerAttempt b (Broker.awaitReply (Key.deferredReply service t) timeout)).run := by
      simp only [Node.awaitScheduled, Node.fireTime, time]
      rfl
    rw [known]
    have resolves : Waiting service instant [] (.resolve service) := nofun
    refine .bindExcept ((asked_brokerFor resolves).mono fun tr r hr => ?_)
    cases r with
    | error e => exact replied_error (hr.2 e rfl)
    | ok b =>
      have pops : Waiting service instant tr (.broker b (.popReply (Key.deferredReply service t)
          timeout)) := by
        rintro b key timeout ⟨⟩
        exact ⟨t, time, rfl⟩
      exact replied_awaitReply pops

def handing : Job → Trail → Effect → Prop
  | .execution e, tr, r => Answering e tr r
  | .operation (.awaitScheduled service instant _), tr, r => Waiting service instant tr r
  | _, _, _ => True

def handingEnding : Job → Trail → Ending → Prop
  | .execution e, tr, v => v = .nothing ∧ Delivered e tr
  | .operation _, tr, .result (.awaitScheduled ..) v => Replied tr v
  | .operation _, _, .result _ _ => True
  | .operation _, _, _ => False
  | .loop _, _, _ => True

theorem free_obeys {α : Type} (p : Routine α) :
    Obeys ⟨Credible, fun _ _ => True⟩ (fun _ _ => True) tr p :=
  (Asks.of_forall (fun _ => trivial) p).allowed fun _ _ _ => trivial

theorem handing_work (j : Job) : Obeys ⟨Credible, handing j⟩ (handingEnding j) [] (j.work s) := by
  cases j with
  | operation o =>
    cases o with
    | awaitScheduled service instant timeout =>
      exact .bind ((waiting_awaitScheduled service instant timeout).mono fun _ _ replied =>
        .done replied)
    | _ => exact .bind ((free_obeys _).mono fun _ _ _ => .done trivial)
  | execution e =>
    exact .bind ((answering_routine e).mono fun _ _ delivered => .done ⟨rfl, delivered⟩)
  | loop l => exact .done trivial

def handingOver (net : NodeId → Setup) : Discipline net where
  rule _ := handing
  ending _ := handingEnding
  works _ := handing_work
  again _ j tr l ended := by
    cases j with
    | loop l' => exact free_obeys _
    | operation o => exact ended.elim
    | execution e => cases ended.1

def Asking (S : State) (x : TaskId) (r : Effect) : Prop :=
  ∃ n j next, S.tasks x = some ⟨n, j, .ask r next⟩

def Over (S : State) (x : TaskId) : Prop := ∃ n j v, S.tasks x = some ⟨n, j, .done v⟩

def Awaited (S : State) (w : TaskId) (n : NodeId) (service : String) (instant : Instant)
    (timeout : Duration) (v : Except Error Bytes) : Prop :=
  S.tasks w = some ⟨n, .operation (.awaitScheduled service instant timeout),
    .done (.result (.awaitScheduled service instant timeout) v)⟩

def awaitEnd? : Option Task → Option (NodeId × Job × Operation × Except Error Bytes)
  | some ⟨n, j, .done (.result (.awaitScheduled service instant timeout) v)⟩ =>
    some (n, j, .awaitScheduled service instant timeout, v)
  | _ => none

theorem awaitEnd?_eq_some {τ : Option Task} {j : Job} {v : Except Error Bytes} :
    awaitEnd? τ = some (n, j, .awaitScheduled service instant timeout, v) ↔
      τ = some ⟨n, j, .done (.result (.awaitScheduled service instant timeout) v)⟩ := by
  constructor
  · intro h
    unfold awaitEnd? at h
    split at h
    · cases h
      rfl
    · cases h
  · rintro rfl
    rfl

instance (v : Except Error Bytes) : Decidable (Awaited S w n service instant timeout v) :=
  decidable_of_iff _ awaitEnd?_eq_some

section Reached

variable {reply : Reply} {a a' : Except Error Unit}

theorem Leaves.told (h : Leaves S.history k x key frame a) (reach : Reachable net S) :
    a = .ok () ∨ ∃ err, a = .error err ∧ err.isTransport = true := by
  obtain ⟨b, ttl, there⟩ := h
  obtain ⟨S₀, n, j, next, hub, q, -, -, -, answers, -⟩ := reach.before there
  rcases answers.1.cases with ⟨deadline, served⟩ | ⟨err, transport, rfl, -⟩
  · exact .inl (Prod.mk.inj (Option.some.inj served)).1.symm
  · exact .inr ⟨err, rfl, transport⟩

theorem Reachable.leaves_once (reach : Reachable net S) (has : S.has x m (.execution e))
    {key' : String} {frame' : Bytes} (h : Leaves S.history k x key frame a)
    (h' : Leaves S.history k' x key' frame' a') : k = k' := by
  have last {k : Nat} {key : String} {frame : Bytes} {a : Except Error Unit}
      (h : Leaves S.history k x key frame a) (i : Nat) (y : Event) (after : k < i)
      (_ : i < S.history.length) (there : At S.history i y) :
      ¬ ∃ b key frame ttl, ∃ a : Except Error Unit,
        y = .served x (.broker b (.pushReply key frame ttl)) a := by
    rintro ⟨b', key', frame', ttl', a', rfl⟩
    obtain ⟨b, ttl, left⟩ := h
    have rule : Executing e (traceOf x (past S.history i)) (.broker b' (.pushReply key' frame' ttl')) :=
      (discipline net).rule_of_served reach there has
    cases rule with
    | push reply outcome first =>
      have earlier := ((at_past (Nat.le_of_lt there.lt)).mpr ⟨after, left⟩).mem
      exact first _ (mem_traceOf.mpr earlier) b key frame ttl rfl
  have later := last h
  have later' := last h'
  obtain ⟨b, ttl, there⟩ := h
  obtain ⟨b', ttl', there'⟩ := h'
  exact there.last_unique there' ⟨_, _, _, _, _, rfl⟩ ⟨_, _, _, _, _, rfl⟩ there.lt there'.lt later later'

theorem Reachable.answered (reach : Reachable net S) (has : S.has x m (.execution e)) {h : Handler}
    {result : Except Error Bytes}
    (run : .served x (.invoke e.service h e.payload) result ∈ S.history) :
    (∃ k a, Leaves S.history k x e.replyKey (Reply.ofResult result).encode a) ∨
      Asking S x (delivery e (.ofResult result)) := by
  obtain ⟨work, here⟩ := has
  cases work with
  | ask r next =>
    have rule : Answering e (traceOf x S.history) r := ((handingOver net).kept reach here).1.1
    obtain rfl := rule h result (mem_traceOf.mpr run)
    exact .inr ⟨_, _, next, here⟩
  | done v =>
    obtain ⟨-, reply, a, left⟩ := ((handingOver net).kept reach here).1
    obtain ⟨k, there⟩ := exists_at_of_mem (mem_traceOf.mp left)
    obtain ⟨i, ran⟩ := exists_at_of_mem run
    have after : i < k := by
      rcases Nat.lt_trichotomy i k with lt | rfl | lt
      · exact lt
      · cases ran.inj there
      · obtain ⟨-, -, -, found, trace⟩ := reach.invoked ⟨_, here⟩ ran
        have earlier := ((at_past (Nat.le_of_lt ran.lt)).mpr ⟨lt, there⟩).mem
        rw [← mem_traceOf, trace] at earlier
        cases List.mem_singleton.mp earlier
    have rule : Answering e (traceOf x (past S.history k)) (delivery e reply) :=
      (handingOver net).rule_of_served reach there ⟨_, here⟩
    have known := ((at_past (Nat.le_of_lt there.lt)).mpr ⟨after, ran⟩).mem
    have same := rule h result (mem_traceOf.mpr known)
    have frame : reply.encode = (Reply.ofResult result).encode := by simpa [delivery] using same
    have leaves : Leaves S.history k x e.replyKey reply.encode a := ⟨_, _, there⟩
    exact .inl ⟨k, a, frame ▸ leaves⟩

theorem Reachable.delivered (reach : Reachable net S) (has : S.has x m (.execution e))
    (ended : Over S x) : ∃ k reply a, Leaves S.history k x e.replyKey (Reply.encode reply) a := by
  obtain ⟨n, j, v, here⟩ := ended
  obtain ⟨-, rfl⟩ := has.unique ⟨_, here⟩
  obtain ⟨-, reply, a, left⟩ := ((handingOver net).kept reach here).1
  obtain ⟨k, there⟩ := exists_at_of_mem (mem_traceOf.mp left)
  exact ⟨k, reply, a, _, _, there⟩

theorem Awaited.takes {v : Except Error Bytes} (h : Awaited S w n service instant timeout v)
    (reach : Reachable net S) (replied : v = reply.toResult) :
    ∃ t p frame, instant.fireTime = .ok t ∧ Takes S.history p w (Key.deferredReply service t) frame ∧
      Reply.decode frame = .ok reply := by
  have ended : Replied (traceOf w S.history) v := ((handingOver net).kept reach h).1
  obtain ⟨b, key, wait, frame, took, decodes⟩ := ended reply replied
  obtain ⟨p, there⟩ := exists_at_of_mem (mem_traceOf.mp took)
  have rule : Waiting service instant (traceOf w (past S.history p)) (.broker b (.popReply key wait)) :=
    (handingOver net).rule_of_served reach there ⟨_, h⟩
  obtain ⟨t, time, rfl⟩ := rule b key wait rfl
  exact ⟨t, p, frame, time, ⟨b, wait, there⟩, decodes⟩

end Reached

end BrokeredCalls.Network
