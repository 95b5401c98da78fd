import BrokeredCalls.Proofs.Redis.Carrying

/-!
The connection of blocking reads over all the reads of a broker handle. A read goes over the connection that
an earlier read opened as long as all reads on it ended well, and else opens one first. So nothing is sent
where an answer may still be due to a read that was given up.
-/

namespace BrokeredCalls.Redis

open Program (Runs)

/-- A read that came to its end, or missed a queue. -/
def well : Except Error (List Delivery) → Bool
  | .ok _ | .error (.missingQueue _) => true
  | .error _ => false

namespace Session

variable (name : String) (limit : Duration)

def judged : Except Failure (List Delivery) → Except Error (List Delivery)
  | .ok batch => .ok batch
  | .error f => match missingQueue? f with
    | some queue => .error (.missingQueue queue)
    | none => .error (failed name "XREADGROUP" f)

def verdict : Outcome → Except Error (List Delivery)
  | .answers vs => judged name ((single vs).bind Entry.batch)
  | .dropped => judged name (.error .dropped)
  | .late => .error (late name "XREADGROUP" limit)

def refusal : Opening → Error
  | .failed f => failed name "open dedicated connection" f
  | .late | .opened _ => late name "open dedicated connection" commandTimeout

end Session

def Session.keeping (s : Session) (r : Except Error (List Delivery)) : Session :=
  if well r then s else { s with reading := none }

theorem Session.reading_keeping (s : Session) (r : Except Error (List Delivery)) :
    (s.keeping r).reading = if well r then s.reading else none := by
  unfold keeping
  split <;> rfl

theorem unwell_failed (name what : String) (f : Failure) :
    well (.error (Session.failed name what f)) = false := by
  unfold Session.failed
  dsimp only
  split <;> rfl

theorem concludeRead_eq (s : Session) (answer : Except Failure (List Delivery)) :
    (concludeRead answer).run.run s =
      .done (Session.judged s.name answer, s.keeping (Session.judged s.name answer)) := by
  cases answer with
  | ok batch => rfl
  | error f =>
    cases missed : Session.missingQueue? f with
    | some queue =>
      simp only [concludeRead, Session.judged, Session.keeping, missed]
      rfl
    | none =>
      simp only [concludeRead, Session.judged, Session.keeping, missed, unwell_failed]
      rfl

structure Query where
  group : String
  consumer : String
  queues : List String
  count : Nat
  block : Duration

namespace Query

variable (q : Query)

abbrev call : Broker.Call := .readGroup q.group q.consumer q.queues q.count q.block

def limit : Duration := q.block + Session.blockGrace

def command : Command :=
  .readGroup q.group q.consumer (max q.count 1) (max q.block.wholeMillis 1) q.queues

def concluded (s : Session) (o : Outcome) : Except Error (List Delivery) × Session :=
  (Session.verdict s.name q.limit o, s.keeping (Session.verdict s.name q.limit o))

variable {q}

theorem serve_on {s : Session} {c : Connection} (isOpen : s.closed = false) (on : s.reading = some c) :
    (Session.serve q.call).run s =
      .ask (I := Wire.interface) (.exchange c [q.command] q.limit) fun o => .done (q.concluded s o) := by
  obtain ⟨name, shared, reading, closed⟩ := s
  obtain rfl : closed = false := isOpen
  obtain rfl : reading = some c := on
  refine congrArg (Program.ask (I := Wire.interface) _) (funext fun o => ?_)
  cases o with
  | answers vs => exact concludeRead_eq ⟨name, shared, some c, false⟩ _
  | dropped => exact concludeRead_eq ⟨name, shared, some c, false⟩ (.error .dropped)
  | late => rfl

theorem serve_connecting {s : Session} (isOpen : s.closed = false) (none : s.reading = none) :
    (Session.serve q.call).run s = .ask (I := Wire.interface) (.connect commandTimeout) fun
      | .opened c => .ask (I := Wire.interface) (.exchange c [q.command] q.limit) fun o =>
          .done (q.concluded { s with reading := some c } o)
      | opening => .done (.error (Session.refusal s.name opening), s) := by
  obtain ⟨name, shared, reading, closed⟩ := s
  obtain rfl : closed = false := isOpen
  obtain rfl : reading = Option.none := none
  refine congrArg (Program.ask (I := Wire.interface) _) (funext fun opening => ?_)
  cases opening with
  | opened c => exact serve_on (s := ⟨name, shared, some c, false⟩) rfl rfl
  | failed f => rfl
  | late => rfl

def sending (q : Query) (c : Connection) (o : Outcome) : Exchange Wire.interface :=
  ⟨.exchange c [q.command] q.limit, o⟩

end Query

def connecting (opening : Opening) : Exchange Wire.interface := ⟨.connect commandTimeout, opening⟩

/-- A read that was made: what was sent for it and answered, the newest first, and how it ended. -/
structure Read where
  query : Query
  sent : Trace Wire.interface
  result : Except Error (List Delivery)

def sentBy (reads : List Read) : Trace Wire.interface := reads.flatMap (·.sent)

def Opens (tr : Trace Wire.interface) (c : Connection) : Prop :=
  ∃ limit, (⟨.connect limit, .opened c⟩ : Exchange Wire.interface) ∈ tr

def Uses (tr : Trace Wire.interface) (c : Connection) : Prop :=
  ∃ commands limit o, (⟨.exchange c commands limit, o⟩ : Exchange Wire.interface) ∈ tr

/-- Everything that is sent is kept with its outcome, which may be any. Whatever is opened is new. -/
def Recording : Wire.interface.Service (Trace Wire.interface)
  | tr, .connect limit, opening, tr' =>
    (∀ c, opening = .opened c → ¬ Opens tr c) ∧ tr' = ⟨.connect limit, opening⟩ :: tr
  | tr, .exchange c commands limit, o, tr' => tr' = ⟨.exchange c commands limit, o⟩ :: tr

/-- One read after another, the newest first, and what is left of the session. -/
inductive Course (name : String) (shared : Connection) : List Read → Session → Prop
  | fresh : Course name shared [] (.new name shared)
  | read {earlier : List Read} {s s' : Session} {d : Read} (course : Course name shared earlier s)
    (run : Runs Recording ((Session.serve d.query.call).run s) (sentBy earlier) (d.result, s')
      (d.sent ++ sentBy earlier)) : Course name shared (d :: earlier) s'

/-- One of these reads opened the connection, and every read on it ended well. -/
structure Lasting (reads : List Read) (c : Connection) : Prop where
  opened : Opens (sentBy reads) c
  well : ∀ d ∈ reads, Uses d.sent c → well d.result = true

inductive Made (tr : Trace Wire.interface) (s : Session) (d : Read) : Session → Prop
  | again {c : Connection} {o : Outcome} (on : s.reading = some c) (sent : d.sent = [d.query.sending c o])
    (result : d.result = Session.verdict s.name d.query.limit o) :
    Made tr s d (s.keeping d.result)
  | anew {c : Connection} {o : Outcome} (none : s.reading = none) (new : ¬ Opens tr c)
    (sent : d.sent = [d.query.sending c o, connecting (.opened c)])
    (result : d.result = Session.verdict s.name d.query.limit o) :
    Made tr s d (Session.keeping { s with reading := some c } d.result)
  | refused {opening : Opening} (none : s.reading = none) (unopened : ∀ c, opening ≠ .opened c)
    (sent : d.sent = [connecting opening])
    (result : d.result = .error (Session.refusal s.name opening)) : Made tr s d s

section Reads

variable {tr : Trace Wire.interface} {s s' : Session} {d : Read} {c : Connection}

theorem made_of_run (isOpen : s.closed = false)
    (run : Runs Recording ((Session.serve d.query.call).run s) tr (d.result, s') (d.sent ++ tr)) :
    Made tr s d s' := by
  cases on : s.reading with
  | some c =>
    rw [Query.serve_on isOpen on] at run
    obtain ⟨o, _, rfl, ended, sent⟩ := run
    obtain ⟨result, rfl⟩ := Prod.mk.inj ended
    rw [← result]
    exact .again on (List.append_cancel_right sent) result
  | none =>
    rw [Query.serve_connecting isOpen on] at run
    obtain ⟨opening, _, ⟨new, rfl⟩, run⟩ := run
    cases opening with
    | opened c =>
      obtain ⟨o, _, rfl, ended, all⟩ := run
      obtain ⟨result, rfl⟩ := Prod.mk.inj ended
      have sent : d.sent = [d.query.sending c o, connecting (.opened c)] := List.append_cancel_right all
      rw [← result]
      exact .anew on (new c rfl) sent result
    | failed f =>
      obtain ⟨ended, all⟩ := run
      obtain ⟨result, rfl⟩ := Prod.mk.inj ended
      have sent : d.sent = [connecting (.failed f)] := List.append_cancel_right all
      exact .refused on (by rintro _ ⟨⟩) sent result
    | late =>
      obtain ⟨ended, all⟩ := run
      obtain ⟨result, rfl⟩ := Prod.mk.inj ended
      have sent : d.sent = [connecting .late] := List.append_cancel_right all
      exact .refused on (by rintro _ ⟨⟩) sent result

variable {tr' : Trace Wire.interface} {c' : Connection} {o : Outcome} {opening : Opening}
  {earlier : List Read} {q : Query}

@[simp] theorem opens_append : Opens (tr ++ tr') c ↔ Opens tr c ∨ Opens tr' c := by
  simp only [Opens, List.mem_append, exists_or]

@[simp] theorem opens_sending : Opens (q.sending c o :: tr) c' ↔ Opens tr c' := by
  simp [Opens, Query.sending]

@[simp] theorem opens_connecting :
    Opens (connecting opening :: tr) c ↔ opening = .opened c ∨ Opens tr c := by
  simp [Opens, connecting, eq_comm, exists_or]

@[simp] theorem not_opens_nil : ¬ Opens [] c := by simp [Opens]

@[simp] theorem uses_sending : Uses (q.sending c o :: tr) c' ↔ c' = c ∨ Uses tr c' := by
  constructor
  · rintro ⟨commands, limit, o', mem⟩
    rcases List.mem_cons.mp mem with same | older
    · cases same
      exact .inl rfl
    · exact .inr ⟨commands, limit, o', older⟩
  · rintro (rfl | ⟨commands, limit, o', older⟩)
    · exact ⟨_, _, _, List.mem_cons_self⟩
    · exact ⟨commands, limit, o', List.mem_cons_of_mem _ older⟩

@[simp] theorem uses_connecting : Uses (connecting opening :: tr) c ↔ Uses tr c := by
  simp [Uses, connecting]

@[simp] theorem not_uses_nil : ¬ Uses [] c := by simp [Uses]

theorem lasting_cons : Lasting (d :: earlier) c ↔ (Opens d.sent c ∨ Opens (sentBy earlier) c) ∧
    (Uses d.sent c → well d.result = true) ∧ ∀ e ∈ earlier, Uses e.sent c → well e.result = true := by
  have opened : Opens (sentBy (d :: earlier)) c ↔ Opens d.sent c ∨ Opens (sentBy earlier) c :=
    opens_append
  rw [← opened, ← List.forall_mem_cons (p := fun e : Read => Uses e.sent c → well e.result = true)]
  exact ⟨fun h => ⟨h.opened, h.well⟩, fun h => ⟨h.1, h.2⟩⟩

structure Remembers (name : String) (reads : List Read) (s : Session) : Prop where
  isOpen : s.closed = false
  named : s.name = name
  cached : ∀ c, s.reading = some c ↔ Lasting reads c
  known : ∀ d ∈ reads, ∀ c, Uses d.sent c → Opens (sentBy reads) c

theorem Remembers.cached_again {name : String} (remembers : Remembers name earlier s)
    (on : s.reading = some c) (sent : d.sent = [q.sending c o]) (c' : Connection) :
    (s.keeping d.result).reading = some c' ↔ Lasting (d :: earlier) c' := by
  have one : Lasting earlier c' ↔ c' = c := by
    rw [← remembers.cached, on, Option.some.injEq, eq_comm]
  have split : Lasting (d :: earlier) c' ↔ Lasting earlier c' ∧ (c' = c → well d.result = true) := by
    rw [lasting_cons, sent]
    simp only [opens_sending, not_opens_nil, false_or, uses_sending, not_uses_nil, or_false]
    exact ⟨fun ⟨opened, ends, wells⟩ => ⟨⟨opened, wells⟩, ends⟩,
      fun ⟨lasting, ends⟩ => ⟨lasting.opened, ends, lasting.well⟩⟩
  rw [Session.reading_keeping, on, split, one]
  cases well d.result <;> simp [eq_comm]

theorem Remembers.cached_anew {name : String} (remembers : Remembers name earlier s)
    (none : s.reading = none) (new : ¬ Opens (sentBy earlier) c)
    (sent : d.sent = [q.sending c o, connecting (.opened c)]) (c' : Connection) :
    (Session.keeping { s with reading := some c } d.result).reading = some c' ↔
      Lasting (d :: earlier) c' := by
  rw [Session.reading_keeping, lasting_cons, sent]
  simp only [opens_sending, opens_connecting, not_opens_nil, or_false, uses_sending, uses_connecting,
    not_uses_nil, Opening.opened.injEq]
  constructor
  · intro kept
    split at kept
    · next ends =>
      obtain rfl := Option.some.inj kept
      refine ⟨.inl rfl, fun _ => ends, fun e he uses => absurd (remembers.known e he _ uses) new⟩
    · cases kept
  · rintro ⟨rfl | opened, ends, wells⟩
    · rw [ends rfl]
      rfl
    -- An older connection would still be the one of the session.
    · have kept := (remembers.cached c').mpr ⟨opened, wells⟩
      rw [none] at kept
      cases kept

theorem Remembers.cached_refused {name : String} (remembers : Remembers name earlier s)
    (unopened : ∀ c, opening ≠ .opened c) (sent : d.sent = [connecting opening])
    (c : Connection) : s.reading = some c ↔ Lasting (d :: earlier) c := by
  rw [remembers.cached, lasting_cons, sent]
  simp only [opens_connecting, unopened c, not_opens_nil, false_or, uses_connecting, not_uses_nil,
    false_implies, true_and]
  exact ⟨fun h => ⟨h.opened, h.well⟩, fun h => ⟨h.1, h.2⟩⟩

theorem Remembers.made {name : String} (remembers : Remembers name earlier s)
    (made : Made (sentBy earlier) s d s') : Remembers name (d :: earlier) s' := by
  have same (s : Session) (r : Except Error (List Delivery)) :
      (s.keeping r).closed = s.closed ∧ (s.keeping r).name = s.name := by
    unfold Session.keeping
    split <;> exact ⟨rfl, rfl⟩
  have known (own : ∀ c, Uses d.sent c → Opens (sentBy (d :: earlier)) c) :
      ∀ e ∈ d :: earlier, ∀ c, Uses e.sent c → Opens (sentBy (d :: earlier)) c :=
    List.forall_mem_cons.mpr ⟨own, fun e he c uses =>
      opens_append.mpr (.inr (remembers.known e he c uses))⟩
  cases made with
  | @again c o on sent result =>
    obtain ⟨closed, named⟩ := same s d.result
    refine ⟨closed.trans remembers.isOpen, named.trans remembers.named, remembers.cached_again on sent,
      known fun c' uses => opens_append.mpr (.inr ?_)⟩
    obtain rfl : c' = c := by simpa [sent] using uses
    exact ((remembers.cached c').mp on).opened
  | @anew c o none new sent result =>
    obtain ⟨closed, named⟩ := same { s with reading := some c } d.result
    refine ⟨closed.trans remembers.isOpen, named.trans remembers.named,
      remembers.cached_anew none new sent, known fun c' uses => opens_append.mpr (.inl ?_)⟩
    obtain rfl : c' = c := by simpa [sent] using uses
    simp [sent]
  | refused none unopened sent result =>
    refine ⟨remembers.isOpen, remembers.named, remembers.cached_refused unopened sent,
      known fun c uses => ?_⟩
    simp [sent] at uses

theorem Course.remembers {name : String} {shared : Connection} {reads : List Read}
    (course : Course name shared reads s) : Remembers name reads s := by
  induction course with
  | fresh => exact ⟨rfl, rfl, fun c => ⟨nofun, fun h => by simpa [sentBy] using h.opened⟩, by simp⟩
  | read _ run ih => exact ih.made (made_of_run ih.isOpen run)

def Outcome.Readable (o : Outcome) : Prop :=
  ∃ vs, o = .answers vs ∧ ((∃ batch, (Session.single vs).bind Entry.batch = .ok batch) ∨
    ∃ f queue, (Session.single vs).bind Entry.batch = .error f ∧ Session.missingQueue? f = some queue)

theorem well_judged_iff {name : String} {answer : Except Failure (List Delivery)} :
    well (Session.judged name answer) = true ↔ (∃ batch, answer = .ok batch) ∨
      ∃ f queue, answer = .error f ∧ Session.missingQueue? f = some queue := by
  cases answer with
  | ok batch => simp [Session.judged, well]
  | error f =>
    cases missed : Session.missingQueue? f with
    | some queue => simp [Session.judged, missed, well]
    | none =>
      simp only [Session.judged, missed, unwell_failed]
      simp [missed]

theorem well_verdict_iff {name : String} {limit : Duration} :
    well (Session.verdict name limit o) = true ↔ o.Readable := by
  cases o with
  | answers vs =>
    rw [Session.verdict, well_judged_iff]
    constructor
    · intro readable
      exact ⟨vs, rfl, readable⟩
    · rintro ⟨_, ⟨⟩, readable⟩
      exact readable
  | dropped =>
    refine ⟨fun ends => ?_, fun ⟨_, same, _⟩ => nomatch same⟩
    simp [Session.verdict, well_judged_iff, Session.missingQueue?] at ends
  | late => exact ⟨nofun, fun ⟨_, same, _⟩ => nomatch same⟩

section Made

variable (made : Made tr s d s')
include made

theorem Made.reading_iff : s.reading = some c ↔ ∃ o, d.sent = [d.query.sending c o] := by
  cases made with
  | @again c' o on sent result =>
    rw [on, sent]
    constructor
    · rintro ⟨⟩
      exact ⟨o, rfl⟩
    · rintro ⟨o', same⟩
      cases same
      rfl
  | anew none new sent result =>
    rw [none, sent]
    exact ⟨nofun, fun ⟨_, same⟩ => nomatch same⟩
  | refused none unopened sent result =>
    rw [none, sent]
    exact ⟨nofun, fun ⟨_, same⟩ => nomatch same⟩

theorem Made.connects (none : s.reading = none) :
    (∃ c o, ¬ Opens tr c ∧ d.sent = [d.query.sending c o, connecting (.opened c)]) ∨
      ∃ opening, (∀ c, opening ≠ .opened c) ∧ d.sent = [connecting opening] := by
  cases made with
  | again on =>
    rw [none] at on
    cases on
  | anew _ new sent => exact .inl ⟨_, _, new, sent⟩
  | refused _ unopened sent => exact .inr ⟨_, unopened, sent⟩

theorem Made.uses (uses : Uses d.sent c) : s.reading = some c ∨ ¬ Opens tr c := by
  cases made with
  | again on sent =>
    obtain rfl : c = _ := by simpa [sent] using uses
    exact .inl on
  | anew _ new sent =>
    obtain rfl : c = _ := by simpa [sent] using uses
    exact .inr new
  | refused _ _ sent => simp [sent] at uses

theorem Made.verdict {o : Outcome} (mem : d.query.sending c o ∈ d.sent) :
    d.result = Session.verdict s.name d.query.limit o := by
  cases made with
  | again _ sent result =>
    rw [sent, List.mem_singleton] at mem
    cases mem
    exact result
  | anew _ _ sent result =>
    rw [sent] at mem
    rcases List.mem_cons.mp mem with same | mem
    · cases same
      exact result
    · cases List.mem_singleton.mp mem
  | refused _ _ sent =>
    rw [sent] at mem
    cases List.mem_singleton.mp mem

theorem Made.refusal {opening : Opening} (only : d.sent = [connecting opening]) :
    d.result = .error (Session.refusal s.name opening) ∧ s'.reading = none := by
  cases made with
  | again _ sent | anew _ _ sent => cases sent.symm.trans only
  | refused none _ sent result =>
    cases sent.symm.trans only
    exact ⟨result, none⟩

end Made

structure Careful (name : String) (earlier : List Read) (s : Session) (d : Read) (s' : Session) :
    Prop where
  cached : ∀ c, s.reading = some c ↔ Lasting earlier c
  caches : ∀ c, s'.reading = some c ↔ Lasting (d :: earlier) c
  again : ∀ c, Lasting earlier c ↔ ∃ o, d.sent = [d.query.sending c o]
  anew : (¬ ∃ c, Lasting earlier c) →
    (∃ c o, (¬ Opens (sentBy earlier) c ∧ ∀ e ∈ earlier, ¬ Uses e.sent c) ∧
      d.sent = [d.query.sending c o, connecting (.opened c)]) ∨
    ∃ opening, (∀ c, opening ≠ .opened c) ∧ d.sent = [connecting opening]
  unspoilt : ∀ e ∈ earlier, ∀ c, Uses e.sent c → Uses d.sent c → well e.result = true
  ends : ∀ c o, d.query.sending c o ∈ d.sent →
    d.result = Session.verdict name d.query.limit o ∧ (well d.result = true ↔ o.Readable)
  refused : ∀ opening, d.sent = [connecting opening] →
    d.result = .error (Session.refusal name opening) ∧ ∀ c, ¬ Lasting (d :: earlier) c

/-- Whatever becomes of the reads of a handle, the next one goes where all answers were taken. -/
theorem Course.next_careful {name : String} {shared : Connection} (course : Course name shared earlier s)
    (run : Runs Recording ((Session.serve d.query.call).run s) (sentBy earlier) (d.result, s')
      (d.sent ++ sentBy earlier)) : Careful name earlier s d s' := by
  have remembers := course.remembers
  have made := made_of_run remembers.isOpen run
  have remembers' := remembers.made made
  have unused {c : Connection} (new : ¬ Opens (sentBy earlier) c) : ∀ e ∈ earlier, ¬ Uses e.sent c :=
    fun e he uses => new (remembers.known e he c uses)
  refine ⟨remembers.cached, remembers'.cached, ?_, ?_, ?_, ?_, ?_⟩
  · intro c
    rw [← remembers.cached, made.reading_iff]
  · intro fresh
    have none : s.reading = none := by
      refine Option.eq_none_iff_forall_not_mem.mpr fun c here => fresh ⟨c, (remembers.cached c).mp here⟩
    rcases made.connects none with ⟨c, o, new, sent⟩ | refused
    · exact .inl ⟨c, o, ⟨new, unused new⟩, sent⟩
    · exact .inr refused
  · intro e he c used uses
    rcases made.uses uses with here | new
    · exact ((remembers.cached c).mp here).well e he used
    · exact absurd used (unused new e he)
  · intro c o mem
    have result := made.verdict mem
    rw [remembers.named] at result
    exact ⟨result, result ▸ well_verdict_iff⟩
  · intro opening only
    obtain ⟨result, none⟩ := made.refusal only
    rw [remembers.named] at result
    refine ⟨result, fun c lasting => ?_⟩
    rw [← remembers'.cached, none] at lasting
    cases lasting

end Reads

namespace Reopened

def query : Query := ⟨"rpc", "rpc", ["s"], 16, .ofSeconds 1⟩

/-- The connection is kept over an answer that a queue is missing, and given up when none comes. -/
def earlier : List Read :=
  [⟨query, [query.sending 0 .late], .error (Session.late "main" "XREADGROUP" query.limit)⟩,
    ⟨query, [query.sending 0 (.answers [.error ⟨"NOGROUP", some "No such key 's'"⟩])],
      .error (.missingQueue "s")⟩,
    ⟨query, [query.sending 0 (.answers [.nil]), connecting (.opened 0)], .ok []⟩]

def again : Read := ⟨query, [query.sending 2 (.answers [.nil]), connecting (.opened 2)], .ok []⟩

def session (reading : Option Connection) : Session := ⟨"main", 1, reading, false⟩

theorem course : Course "main" 1 earlier (session none) := by
  have first : Course "main" 1 (earlier.drop 2) (session (some 0)) :=
    .read .fresh ⟨.opened 0, _, ⟨fun _ _ => not_opens_nil, rfl⟩, .answers [.nil], _, rfl, rfl, rfl⟩
  have missed : Course "main" 1 (earlier.drop 1) (session (some 0)) :=
    .read first ⟨.answers [.error ⟨"NOGROUP", some "No such key 's'"⟩], _, rfl, rfl, rfl⟩
  exact .read missed ⟨.late, _, rfl, rfl, rfl⟩

theorem run : Runs Recording ((Session.serve query.call).run (session none)) (sentBy earlier)
    (again.result, session (some 2)) (again.sent ++ sentBy earlier) := by
  refine ⟨.opened 2, _, ⟨?_, rfl⟩, .answers [.nil], _, rfl, rfl, rfl⟩
  rintro _ ⟨⟩
  simp [sentBy, earlier]

end Reopened

theorem careful_reopened : Course "main" 1 Reopened.earlier (Reopened.session none) ∧
    Careful "main" Reopened.earlier (Reopened.session none) Reopened.again (Reopened.session (some 2)) :=
  ⟨Reopened.course, Reopened.course.next_careful Reopened.run⟩

end BrokeredCalls.Redis
