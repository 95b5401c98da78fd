import BrokeredCalls.Proofs.Network.Operations
import BrokeredCalls.Proofs.Pending
import BrokeredCalls.Proofs.Provisioning.Serving

/-!
Who does what to the life of its node. A spawn marks the node before it launches loops, and takes the
mark away only if it launches none; a shutdown closes brokers only after it has waited for the loops; and
whatever else a node does begins and ends nothing.
-/

namespace BrokeredCalls.Shutdown

open Broker (Call)
open Network (Ending Job Operation Trail round)
open Node (Effect Execution Loop Routine Shared)
open Program (Asks Obeys)
open Recovery (Handles Handling asks_handle)

def ordinary : Effect → Bool
  | .broker _ .close | .claimSpawn | .releaseSpawn | .launch _ | .raiseStop | .joinWorkers => false
  | _ => true

def holds : Trail → Bool
  | [] => false
  | ⟨.claimSpawn, claimed⟩ :: _ => claimed
  | ⟨.releaseSpawn, _⟩ :: _ => false
  | _ :: tr => holds tr

def Joined (tr : Trail) : Prop := (⟨.joinWorkers, ()⟩ : Exchange Node.interface) ∈ tr

def Replaced (tr : Trail) : Prop :=
  ∃ ts n, (⟨.pending (.replace ts), n⟩ : Exchange Node.interface) ∈ tr

inductive Permitted (g : String) (tr : Trail) : Job → Effect → Prop
  | operation {o : Operation} {r : Effect} (other : o ≠ .shutdown) (h : ordinary r = true) :
    Permitted g tr (.operation o) r
  | execution {e : Execution} {r : Effect} (h : ordinary r = true) : Permitted g tr (.execution e) r
  | loop {l : Loop} {r : Effect} (h : ordinary r = true)
    (handles : ∀ b c, r = .broker b c → Handles g c) : Permitted g tr (.loop l) r
  | claim (first : tr = []) : Permitted g tr (.operation .spawn) .claimSpawn
  | release (held : holds tr = true) : Permitted g tr (.operation .spawn) .releaseSpawn
  | launch (loops : List Loop) (held : holds tr = true) (replaced : Replaced tr) :
    Permitted g tr (.operation .spawn) (.launch loops)
  | raise : Permitted g tr (.operation .shutdown) .raiseStop
  | join : Permitted g tr (.operation .shutdown) .joinWorkers
  | close (b : BrokerId) (joined : Joined tr) : Permitted g tr (.operation .shutdown) (.broker b .close)

/-- What has to be so when something of a node is begun or ended. -/
def Requires (tr : Trail) (j : Job) : Effect → Prop
  | .claimSpawn => tr = []
  | .releaseSpawn => holds tr = true
  | .launch _ => holds tr = true ∧ Replaced tr
  | .joinWorkers => j = .operation .shutdown
  | .broker _ .close => j = .operation .shutdown ∧ Joined tr
  | _ => True

theorem requires_of_ordinary {tr : Trail} {j : Job} {r : Effect} (h : ordinary r = true) :
    Requires tr j r := by
  cases r with
  | broker b c =>
    cases c with
    | close => cases h
    | _ => exact trivial
  | claimSpawn | releaseSpawn | launch | raiseStop | joinWorkers => cases h
  | _ => exact trivial

theorem Permitted.requires {g : String} {tr : Trail} {j : Job} {r : Effect}
    (permitted : Permitted g tr j r) : Requires tr j r := by
  cases permitted with
  | operation _ h | execution h | loop h => exact requires_of_ordinary h
  | claim first => exact first
  | release held => exact held
  | launch _ held replaced => exact ⟨held, replaced⟩
  | raise => exact trivial
  | join => exact rfl
  | close _ joined => exact ⟨rfl, joined⟩

/-- A spawn that came back well holds its mark; a shutdown has waited and then closed every broker. -/
def Concluded (s : Shared) : Job → Trail → Ending → Prop
  | .operation .spawn, tr, .result .spawn (.ok _) => holds tr = true
  | .operation .shutdown, tr, v => (∀ l, v ≠ .again l) ∧ Joined tr ∧
    ∀ source ∈ s.sources, ∃ a, (⟨.broker source.broker .close, a⟩ : Exchange Node.interface) ∈ tr
  | _, _, _ => True

abbrev lifecycle (s : Shared) (j : Job) : Conduct Node.interface :=
  ⟨fun _ _ => True, fun tr => Permitted s.config.group tr j⟩

variable {s : Shared} {tr : Trail}

abbrev Ordinary {α : Type} (p : Routine α) : Prop := Asks (fun r => ordinary r = true) p

section Operations

theorem ordinary_admits (service : String) : Node.Admits (fun r => ordinary r = true) service where
  resolve := rfl
  append _ _ _ := rfl
  draw := rfl
  sleep _ := rfl
  abort _ := rfl
  pop _ _ _ := rfl

theorem ordinary_of_handling {g : String} {r : Effect} (handling : Handling g r) :
    ordinary r = true := by
  cases r with
  | broker b c =>
    cases c with
    | close =>
      rcases handling with ⟨q, asked⟩ | ⟨-, stays⟩
      · cases asked
      · exact absurd rfl stays
    | _ => rfl
  | claimSpawn | releaseSpawn | launch | raiseStop | joinWorkers => exact handling.elim
  | _ => rfl

theorem ordinary_reload : Ordinary (Node.Deferred.reload s).run :=
  Node.asks_reload (fun _ => rfl) (fun _ _ => rfl) fun _ => rfl

theorem ordinary_ensureGroup (b : BrokerId) (queue : String) :
    Ordinary (Node.onBrokerAttempt b (Broker.ensureGroup queue s.config.group)).run :=
  (Recovery.asks_provision b queue).mono fun _ => ordinary_of_handling

theorem ordinary_provision (b : BrokerId) (services : List String) :
    Ordinary (Node.Dispatch.provision s b services).run :=
  Node.asks_provision (ordinary_ensureGroup b)

theorem ordinary_provisionAll (sources : List Node.Source) :
    Ordinary (Node.provisionAll s sources).run :=
  Node.asks_provisionAll (fun _ => rfl) ordinary_ensureGroup

theorem ordinary_routine (e : Execution) : Ordinary e.routine :=
  e.asks_routine rfl (fun _ => rfl) fun _ => rfl

end Operations

theorem holds_of_ordinary {r : Effect} (h : ordinary r = true) (a : r.Answer) :
    holds (⟨r, a⟩ :: tr) = holds tr := by
  cases r with
  | claimSpawn | releaseSpawn => cases h
  | _ => rfl

theorem permitted_ordinary {α : Type} {p : Routine α} (h : Ordinary p) (held : holds tr = true) :
    Obeys (lifecycle s (.operation .spawn)) (fun tr _ => holds tr = true) tr p :=
  h.obeys (fun _ _ _ h => .operation nofun h)
    (fun _ _ a held h => (holds_of_ordinary h a).trans held) held

theorem permitted_reload (held : holds tr = true) :
    Obeys (lifecycle s (.operation .spawn))
      (fun tr r => holds tr = true ∧ ∀ n, r = .ok n → Replaced tr) tr (Node.Deferred.reload s).run := by
  have scan : Ordinary (Node.Deferred.scan s.sources).run := Node.asks_scan (fun _ => rfl) fun _ _ => rfl
  refine .bindExcept ((permitted_ordinary scan held).mono fun tr r held => ?_)
  cases r with
  | error e => exact ⟨held, nofun⟩
  | ok ts =>
    exact .lift (.request (.operation nofun rfl) fun n _ =>
      ⟨held, fun _ _ => ⟨ts, n, List.mem_cons_self⟩⟩)

theorem permitted_startWorkers (held : holds tr = true) :
    Obeys (lifecycle s (.operation .spawn)) (fun tr _ => holds tr = true) tr
      (Node.startWorkers s).run := by
  refine .bindExcept ((permitted_ordinary (ordinary_provisionAll s.sources) held).mono
    fun tr r held => ?_)
  cases r with
  | error e => exact held
  | ok served =>
    refine .bindExcept ((permitted_reload held).mono fun tr r hr => ?_)
    obtain ⟨held, replaced⟩ := hr
    cases r with
    | error e => exact held
    | ok count =>
      obtain ⟨ts, n, mem⟩ := replaced count rfl
      refine .bindExcept (.lift (.request (.operation nofun rfl) fun stop _ => ?_))
      refine .bindExcept (.lift (.request (.operation nofun rfl) fun now _ => ?_))
      refine .lift (.request (.launch _ held ⟨ts, n, ?_⟩) fun _ _ => held)
      exact List.mem_cons_of_mem _ (List.mem_cons_of_mem _ mem)

theorem permitted_spawn :
    Obeys (lifecycle s (.operation .spawn)) (fun tr r => ∀ u, r = .ok u → holds tr = true) []
      (Node.spawn s).run := by
  refine .bindExcept (.lift (.request (.claim rfl) fun claimed _ => ?_))
  cases claimed with
  | false => exact .done nofun
  | true =>
    refine .bindExcept (.lift ((permitted_startWorkers rfl).mono fun tr r held => ?_))
    cases r with
    | ok _ => exact .done fun _ _ => held
    | error e => exact .bindExcept (.lift (.request (.release held) fun _ _ => .done nofun))

theorem permitted_closeAll {sources : List Node.Source} (joined : Joined tr) :
    Obeys (lifecycle s (.operation .shutdown)) (fun tr' _ => tr <:+ tr' ∧ ∀ source ∈ sources,
      ∃ a, (⟨.broker source.broker .close, a⟩ : Exchange Node.interface) ∈ tr') tr
      (Node.closeAll sources) := by
  induction sources generalizing tr with
  | nil => exact .done ⟨List.suffix_refl tr, List.forall_mem_nil _⟩
  | cons source rest ih =>
    refine .bind (.request (.close _ joined) fun a _ => ?_)
    refine (ih (List.mem_cons_of_mem _ joined)).mono fun tr' _ hr => ?_
    obtain ⟨suffix, closed⟩ := hr
    refine ⟨(List.suffix_cons _ _).trans suffix, List.forall_mem_cons.mpr ⟨⟨a, ?_⟩, closed⟩⟩
    exact suffix.subset List.mem_cons_self

theorem permitted_shutdown :
    Obeys (lifecycle s (.operation .shutdown))
      (fun tr _ => Joined tr ∧ ∀ source ∈ s.sources,
        ∃ a, (⟨.broker source.broker .close, a⟩ : Exchange Node.interface) ∈ tr) []
      (Node.shutdown s) := by
  refine .bind (.request .raise fun _ _ => .bind (.request .join fun _ _ => ?_))
  refine (permitted_closeAll List.mem_cons_self).mono fun tr _ hr => ?_
  exact ⟨hr.1.subset List.mem_cons_self, hr.2⟩

theorem ordinary_operation {o : Operation} (alone : o.alters = none) (other : o ≠ .shutdown)
    (other' : o ≠ .spawn) : Ordinary (o.routine s) := by
  cases o with
  | call service payload timeout => exact (ordinary_admits service).callWithTimeout payload timeout
  | scheduleAt service instant payload => exact (ordinary_admits service).scheduleAt instant payload
  | cancel service instant => exact (ordinary_admits service).cancel instant
  | awaitScheduled service instant timeout =>
    exact (ordinary_admits service).awaitScheduled instant timeout
  | reload => exact ordinary_reload
  | spawn => exact absurd rfl other'
  | shutdown => exact absurd rfl other
  | add | remove => cases alone

theorem concluded_operation {o : Operation} (other : o ≠ .shutdown) (other' : o ≠ .spawn) {v : Ending} :
    Concluded s (.operation o) tr v := by
  cases o with
  | spawn => exact absurd rfl other'
  | shutdown => exact absurd rfl other
  | _ => exact trivial

theorem permitted_work {j : Job} (alone : ∀ o, j = .operation o → o.alters = none) :
    Obeys (lifecycle s j) (Concluded s j) [] (j.work s) := by
  cases j with
  | execution e =>
    exact .bind (Obeys.mono ((ordinary_routine e).allowed fun _ _ => .execution) fun _ _ _ =>
      .done trivial)
  | loop l => exact .done trivial
  | operation o =>
    by_cases shutdown : o = .shutdown
    · subst shutdown
      exact .bind (permitted_shutdown.mono fun _ _ h => .done ⟨nofun, h⟩)
    by_cases spawn : o = .spawn
    · subst spawn
      refine .bind (permitted_spawn.mono fun tr r h => .done ?_)
      cases r with
      | ok u => exact h u rfl
      | error e => exact trivial
    · refine .bind (Obeys.mono ((ordinary_operation (alone o rfl) shutdown spawn).allowed
        fun _ _ => .operation shutdown) fun _ _ _ => .done ?_)
      exact concluded_operation shutdown spawn

section Loops

def Looping (g : String) (r : Effect) : Prop :=
  ordinary r = true ∧ ∀ b c, r = .broker b c → Handles g c

theorem looping_of_handling {g : String} {r : Effect} (handling : Handling g r) : Looping g r := by
  refine ⟨ordinary_of_handling handling, ?_⟩
  rintro b c rfl
  exact handling

theorem looping_dispatch (b : BrokerId) (consumer : String) (services : List String)
    (stop : SignalId) : Asks (I := Node.interface) (Looping s.config.group)
      (Node.Dispatch.round s b consumer services stop) := by
  refine .bind (.request ⟨rfl, nofun⟩) fun raised => ?_
  cases raised with
  | true => exact trivial
  | false =>
    refine .bind (.request ⟨rfl, nofun⟩) fun ended => ?_
    cases ended with
    | abandoned => exact trivial
    | raised => exact trivial
    | value result =>
      refine .bind ((asks_handle b s stop result).mono fun _ => looping_of_handling) fun goesOn => ?_
      cases goesOn <;> exact trivial

theorem handling_fire (g : String) (t : DelayedTask) :
    Asks (I := Node.interface) (Handling g) (Node.Deferred.fire s t).run :=
  Node.asks_fire t trivial (fun _ => .inr ⟨rfl, nofun⟩) trivial fun _ _ => trivial

theorem handling_resync (g : String) :
    Asks (I := Node.interface) (Handling g) (Node.Deferred.resync s).run :=
  Node.asks_resync (fun _ => trivial) (fun _ _ => .inr ⟨rfl, nofun⟩) fun _ => trivial

theorem handling_round (g : String) (stop : SignalId) (last : Nat) :
    Asks (I := Node.interface) (Handling g) (Node.Deferred.round s stop last) :=
  Node.asks_round trivial trivial (handling_resync g) fun _ =>
    Node.asks_rest trivial (fun _ => trivial) (handling_fire g) fun _ => trivial

theorem looping_round (l : Loop) :
    Asks (I := Node.interface) (Looping s.config.group) (round s l) := by
  have rounds : Asks (I := Node.interface) (Looping s.config.group) (l.round s) := by
    cases l with
    | dispatch b consumer services stop => exact looping_dispatch b consumer services stop
    | fire stop last => exact (handling_round _ stop last).mono fun _ => looping_of_handling
  refine .bind rounds fun r => ?_
  cases r <;> exact trivial

theorem permitted_round (l l' : Loop) :
    Obeys (lifecycle s (.loop l)) (Concluded s (.loop l)) tr (round s l') :=
  ((looping_round l').allowed fun _ _ h => Permitted.loop h.1 h.2).mono fun _ _ _ => trivial

end Loops

end BrokeredCalls.Shutdown
