import BrokeredCalls.Proofs.Hosting
import BrokeredCalls.Proofs.Network.Loops
import BrokeredCalls.Proofs.Text.Keys

/-!
Deferred calls in the hands of a program. An add holds its task from the durable write to the pending
list, a fire pass from the pending list to the claim or back, a remove from the pending list to the
durable delete; none of them does anything else in between. All this as far as the answers fit the node:
it attends to a service for which it has a handler and a broker.
-/

namespace BrokeredCalls.Network

open Node (Effect Execution Routine Attempt)
open Program (Asks Obeys)

variable {node : Setup} {tr : Trail} {t u : DelayedTask}

def IsField (t : DelayedTask) (key field : String) : Prop :=
  key = Key.delay t.service ∧ field = Decimal.ofInt64 t.fireAt

theorem IsField.unique {key field : String} (h : IsField t key field) (k : IsField u key field) :
    t = u := by
  obtain ⟨rfl, rfl⟩ := h
  have hs := Key.delay_injective k.1
  have ht := Decimal.ofInt64_injective k.2
  cases t
  cases u
  cases hs
  cases ht
  rfl

def Holds (t : DelayedTask) : Trail → Prop
  | ⟨.broker _ (.hashSet key field _), .ok _⟩ :: _ => IsField t key field
  | ⟨.broker _ (.hashTake key field), .error _⟩ :: _ => IsField t key field
  | ⟨.pending (.erase u), _⟩ :: _ => u = t
  | ⟨.pending (.next _), .due u⟩ :: _ => u = t
  | ⟨.resolve _, _⟩ :: tr => Holds t tr
  | _ => False

/-- Requests of a program that holds the task: it is on its way to track, claim or delete it. -/
def Settles (t : DelayedTask) : Effect → Prop
  | .pending (.insert u) => u = t
  | .resolve service => service = t.service
  | .broker _ (.hashTake key field) | .broker _ (.hashDelete key field) => IsField t key field
  | _ => False

def Free (tr : Trail) : Prop := ∀ t, ¬ Holds t tr

def Known (node : Setup) : Job → Prop
  | .loop (.dispatch _ _ services _) => ∀ s ∈ services, node.Attends s
  | .operation o => ∀ s, o.alters = some s → node.Attends s
  | _ => True

/-- Answers that fit the node: its registry's, and tasks and entries of services it attends to. -/
def Proper (node : Setup) : (r : Effect) → r.Answer → Prop
  | .resolve service, found => found = node.registry.resolve service
  | .servicesOn source, services => services = node.registry.servicesOn source
  | .pending (.next _), .due t => node.Attends t.service
  | .readUnlessStopped .., .value (.ok ds) => ∀ d ∈ ds, node.Attends d.envelope.service
  | _, _ => True

def Read (tr : Trail) (service : String) (fields : List String) : Prop :=
  ∃ b, (⟨.broker b (.hashFields (Key.delay service)), .ok fields⟩ : Exchange Node.interface) ∈ tr

/-- What a scan came to: tasks of these services alone, whose hashes were read, and all that was read. -/
structure Gathered (services : String → Prop) (tr : Trail) (ts : List DelayedTask) : Prop where
  scanned : ∀ t ∈ ts, services t.service
  read : ∀ s, services s → ∃ fields, Read tr s fields
  all : ∀ s fields, Read tr s fields → ∀ t ∈ Node.Deferred.tasksOf s fields, t ∈ ts

def Lawful (node : Setup) (tr : Trail) : Effect → Prop
  | .pending (.insert t) => node.Attends t.service
  | .pending (.merge ts) => ∀ t ∈ ts, node.Attends t.service
  | .pending (.replace ts) => Gathered node.Attends tr ts
  | .launch loops => ∀ l ∈ loops, Known node (.loop l)
  | .readUnlessStopped _ _ _ services _ _ _ => ∀ s ∈ services, node.Attends s
  | _ => True

structure Careful (node : Setup) (tr : Trail) (r : Effect) : Prop where
  lawful : Lawful node tr r
  settles : ∀ t, Holds t tr → Settles t r

abbrev care (node : Setup) : Conduct Node.interface := ⟨Proper node, Careful node⟩

/-- Requests that leave pending lists and hashes as they are and no task in hand. -/
def plain : Effect → Bool
  | .broker _ (.hashSet ..) | .broker _ (.hashTake ..) | .readUnlessStopped .. | .launch _ => false
  | .pending _ => false
  | _ => true

theorem Free.careful {r : Effect} (free : Free tr) (lawful : Lawful node tr r) : Careful node tr r :=
  ⟨lawful, fun t h => absurd h (free t)⟩

theorem lawful_of_plain {r : Effect} (h : plain r = true) : Lawful node tr r := by
  cases r with
  | pending | readUnlessStopped | launch => cases h
  | _ => exact trivial

theorem Free.plain {r : Effect} (free : Free tr) (h : plain r = true) (a : r.Answer) :
    Free (⟨r, a⟩ :: tr) := by
  intro t held
  cases r with
  | broker b c => cases c <;> first | exact held | cases h
  | pending => cases h
  | resolve => exact free t held
  | _ => exact held

theorem care_plain {α : Type} {p : Routine α} (h : Asks (fun r => plain r = true) p) (free : Free tr) :
    Obeys (care node) (fun tr _ => Free tr) tr p :=
  h.obeys (fun _ _ free h => free.careful (lawful_of_plain h)) (fun _ _ a free h => free.plain h a) free

section Scan

variable {P Q : String → Prop} {tr' tr'' : Trail} {ts us : List DelayedTask}

theorem Read.append_iff {newer older : Trail} {service : String} {fields : List String} :
    Read (newer ++ older) service fields ↔ Read newer service fields ∨ Read older service fields := by
  simp only [Read, List.mem_append, exists_or]

theorem not_read_singleton {x : Exchange Node.interface} {service : String} {fields : List String}
    (h : ∀ b, x.1 ≠ .broker b (.hashFields (Key.delay service))) : ¬ Read [x] service fields := by
  rintro ⟨b, hm⟩
  rw [← List.mem_singleton.mp hm] at h
  exact h b rfl

theorem Gathered.append {newer older : Trail} (h : Gathered P older ts) (k : Gathered Q newer us) :
    Gathered (fun s => P s ∨ Q s) (newer ++ older) (ts ++ us) where
  scanned t ht := (List.mem_append.mp ht).imp (h.scanned t) (k.scanned t)
  read s hs := by
    rcases hs with hs | hs
    · obtain ⟨fields, hr⟩ := h.read s hs
      exact ⟨fields, Read.append_iff.mpr (.inr hr)⟩
    · obtain ⟨fields, hr⟩ := k.read s hs
      exact ⟨fields, Read.append_iff.mpr (.inl hr)⟩
  all s fields hr t ht := by
    rcases Read.append_iff.mp hr with hr | hr
    · exact List.mem_append_right _ (k.all s fields hr t ht)
    · exact List.mem_append_left _ (h.all s fields hr t ht)

theorem Gathered.congr (h : Gathered P tr ts) (k : ∀ s, P s ↔ Q s) : Gathered Q tr ts where
  scanned t ht := (k _).mp (h.scanned t ht)
  read s hs := h.read s ((k s).mpr hs)
  all := h.all

theorem gathered_nil (unread : ∀ s fields, ¬ Read tr s fields) : Gathered (fun _ => False) tr [] where
  scanned _ ht := absurd ht List.not_mem_nil
  read _ hs := hs.elim
  all s fields hr := absurd hr (unread s fields)

theorem gathered_read {b : BrokerId} {service : String} {fields : List String} :
    Gathered (· = service) [⟨.broker b (.hashFields (Key.delay service)), .ok fields⟩]
      (Node.Deferred.tasksOf service fields) where
  scanned t ht := by
    obtain ⟨field, -, heq⟩ := List.mem_filterMap.mp ht
    obtain ⟨time, -, rfl⟩ := Option.map_eq_some_iff.mp heq
    rfl
  read s hs := ⟨fields, b, hs ▸ List.mem_singleton_self _⟩
  all s fields' hr := by
    obtain ⟨b', hm⟩ := hr
    have heq := List.mem_singleton.mp hm
    simp only [Sigma.mk.injEq, Effect.broker.injEq, Broker.Call.hashFields.injEq] at heq
    obtain ⟨⟨rfl, hkey⟩, hf⟩ := heq
    cases Key.delay_injective hkey
    cases eq_of_heq hf
    exact fun t ht => ht

def Gathers (P : String → Prop) (tr tr' : Trail) (ts : List DelayedTask) : Prop :=
  ∃ newer, tr' = newer ++ tr ∧ Gathered P newer ts

theorem Gathers.trans (h : Gathers P tr tr' ts) (k : Gathers Q tr' tr'' us) :
    Gathers (fun s => P s ∨ Q s) tr tr'' (ts ++ us) := by
  obtain ⟨older, rfl, h⟩ := h
  obtain ⟨newer, rfl, k⟩ := k
  exact ⟨newer ++ older, (List.append_assoc _ _ _).symm, h.append k⟩

theorem Gathers.congr (h : Gathers P tr tr' ts) (k : ∀ s, P s ↔ Q s) : Gathers Q tr tr' ts := by
  obtain ⟨newer, rfl, h⟩ := h
  exact ⟨newer, rfl, h.congr k⟩

theorem gathers_read {b : BrokerId} {service : String} {fields : List String} :
    Gathers (· = service) tr (⟨.broker b (.hashFields (Key.delay service)), .ok fields⟩ :: tr)
      (Node.Deferred.tasksOf service fields) := ⟨[_], rfl, gathered_read⟩

theorem gathers_unread {x : Exchange Node.interface}
    (h : ∀ b key, x.1 ≠ .broker b (.hashFields key)) : Gathers (fun _ => False) tr (x :: tr) [] :=
  ⟨[x], rfl, gathered_nil fun _ _ => not_read_singleton fun b => h b _⟩

def Scans (P : String → Prop) (tr tr' : Trail) (r : Except Error (List DelayedTask)) : Prop :=
  Free tr' ∧ ∀ ts, r = .ok ts → Gathers P tr tr' ts

theorem care_scanServices (b : BrokerId) (services : List String) (free : Free tr) :
    Obeys (care node) (Scans (· ∈ services) tr) tr (Node.Deferred.scanServices b services).run := by
  induction services generalizing tr with
  | nil =>
    refine .done ⟨free, ?_⟩
    rintro _ ⟨⟩
    exact ⟨[], rfl, (gathered_nil (by simp [Read])).congr (by simp)⟩
  | cons service rest ih =>
    refine .bindExcept (.request (free.careful trivial) fun fields _ => ?_)
    have free₁ := free.plain (r := .broker b (.hashFields (Key.delay service))) rfl fields
    cases fields with
    | error e => exact ⟨free₁, nofun⟩
    | ok fields =>
      refine .bindExcept ((ih free₁).mono fun tr' r hr => ?_)
      obtain ⟨free', gathers⟩ := hr
      cases r with
      | error e => exact ⟨free', nofun⟩
      | ok more =>
        refine .done ⟨free', ?_⟩
        rintro _ ⟨⟩
        exact (gathers_read.trans (gathers more rfl)).congr fun s => List.mem_cons.symm

theorem care_scan (sources : List Node.Source) (free : Free tr) :
    Obeys (care node)
      (Scans (fun s => ∃ source ∈ sources, s ∈ node.registry.servicesOn source.name) tr) tr
      (Node.Deferred.scan sources).run := by
  induction sources generalizing tr with
  | nil =>
    refine .done ⟨free, ?_⟩
    rintro _ ⟨⟩
    exact ⟨[], rfl, (gathered_nil (by simp [Read])).congr (by simp)⟩
  | cons source rest ih =>
    refine .bindExcept (.lift (.request (free.careful trivial) fun services known => ?_))
    have free₁ := free.plain (r := .servicesOn source.name) rfl services
    obtain rfl : services = node.registry.servicesOn source.name := known
    refine .bindExcept ((care_scanServices source.broker _ free₁).mono fun tr₁ r hr => ?_)
    obtain ⟨free₂, gathers₁⟩ := hr
    cases r with
    | error e => exact ⟨free₂, nofun⟩
    | ok found =>
      refine .bindExcept ((ih free₂).mono fun tr₂ r hr => ?_)
      obtain ⟨free₃, gathers₂⟩ := hr
      cases r with
      | error e => exact ⟨free₃, nofun⟩
      | ok more =>
        refine .done ⟨free₃, ?_⟩
        rintro _ ⟨⟩
        have all := ((gathers_unread (by simp)).trans (gathers₁ found rfl)).trans (gathers₂ more rfl)
        exact all.congr fun s => by simp

end Scan

section Deferred

theorem care_resync (free : Free tr) :
    Obeys (care node) (fun tr _ => Free tr) tr (Node.Deferred.resync node.shared).run := by
  refine .bindExcept ((care_scan node.shared.sources free).mono fun tr r hr => ?_)
  obtain ⟨free', gathers⟩ := hr
  cases r with
  | error e => exact free'
  | ok ts =>
    obtain ⟨newer, -, gathered⟩ := gathers ts rfl
    exact .lift (.request (free'.careful gathered.scanned) fun _ _ t held => held)

def HoldsOnly (t : DelayedTask) (tr : Trail) : Prop := ∀ u, Holds u tr → u = t

theorem HoldsOnly.careful {r : Effect} (only : HoldsOnly t tr) (lawful : Lawful node tr r)
    (settles : Settles t r) : Careful node tr r :=
  ⟨lawful, fun u held => only u held ▸ settles⟩

theorem holdsOnly_written {b : BrokerId} {service : String} {time : FireTime} {payload : Bytes} :
    HoldsOnly ⟨time, service⟩ (⟨.broker b
      (.hashSet (Key.delay service) (Decimal.ofInt64 time) payload), .ok ()⟩ :: tr) :=
  fun _ held => IsField.unique held ⟨rfl, rfl⟩

theorem holdsOnly_erased {known : Bool} : HoldsOnly t (⟨.pending (.erase t), known⟩ :: tr) :=
  fun _ held => held.symm

theorem holdsOnly_refused {b : BrokerId} {e : Error} :
    HoldsOnly t (⟨.broker b (.hashTake (Key.delay t.service) (Decimal.ofInt64 t.fireAt)),
      .error e⟩ :: tr) := fun _ held => IsField.unique held ⟨rfl, rfl⟩

theorem free_claimed {b : BrokerId} {key field : String} {taken : Option Bytes} :
    Free (⟨.broker b (.hashTake key field), .ok taken⟩ :: tr) := fun _ held => held

theorem care_add {b : BrokerId} {service : String} {time : FireTime} {payload : Bytes}
    (attends : node.Attends service) (free : Free tr) :
    Obeys (care node) (fun tr _ => Free tr) tr (Node.Deferred.add b service time payload).run := by
  refine .bindExcept (.request (free.careful trivial) fun written _ => ?_)
  cases written with
  | error e => exact fun t held => held
  | ok _ =>
    exact .bindExcept (.lift (.request (holdsOnly_written.careful attends rfl)
      fun _ _ t held => held))

theorem care_remove {b : BrokerId} {service : String} {time : FireTime} (free : Free tr) :
    Obeys (care node) (fun tr _ => Free tr) tr (Node.Deferred.remove b service time).run := by
  refine .bindExcept (.lift (.request (free.careful trivial) fun known _ => ?_))
  exact .request (holdsOnly_erased.careful trivial ⟨rfl, rfl⟩) fun deleted _ t held => held

theorem care_fire (attends : node.Attends t.service) (only : HoldsOnly t tr) :
    Obeys (care node) (fun tr _ => Free tr) tr (Node.Deferred.fire node.shared t).run := by
  refine .bindExcept (.lift (.bind (.request (only.careful trivial rfl) fun found known => ?_)))
  -- Without a broker the task would be dropped here, in nobody's hands and still durable.
  obtain ⟨handler, source, b, hresolve, hbroker⟩ := attends.resolve
  obtain rfl : found = node.registry.resolve t.service := known
  have hfound : (node.registry.resolve t.service).bind
      (fun route => node.shared.brokerOf route.source) = some b := by
    rw [hresolve]
    exact hbroker
  have only₁ : HoldsOnly t (⟨.resolve t.service, node.registry.resolve t.service⟩ :: tr) := only
  refine .done ?_
  rw [hfound]
  refine .bindExcept (.lift (.request (only₁.careful trivial ⟨rfl, rfl⟩) fun taken _ => ?_))
  cases taken with
  | error e =>
    exact .bindExcept (.lift (.request (holdsOnly_refused.careful attends rfl)
      fun _ _ u held => held))
  | ok field =>
    cases field with
    | none => exact free_claimed
    | some payload =>
      cases payload with
      | nil => exact free_claimed
      | cons byte bytes =>
        exact .lift (.request (free_claimed.careful trivial) fun _ _ u held => held)

def InHand (node : Setup) (tr : Trail) : Node.Deferred.Step → Prop
  | .fire t => node.Attends t.service ∧ HoldsOnly t tr
  | .sleep _ => Free tr

theorem care_nextStep (free : Free tr) :
    Obeys (care node) (InHand node) tr (Node.Deferred.nextStep node.shared) := by
  refine .bind (.request (free.careful trivial) fun now _ => ?_)
  have free₁ := free.plain (r := .reading) rfl now
  refine .bind (.request (free₁.careful trivial) fun next proper => .done ?_)
  cases next with
  | due t => exact ⟨proper, fun u held => held.symm⟩
  | later t => exact fun u held => held
  | nothing => exact fun u held => held

theorem care_pauseAfter {step : Node.Deferred.Step} (inHand : InHand node tr step) :
    Obeys (care node) (fun tr _ => Free tr) tr (Node.Deferred.pauseAfter node.shared step) := by
  cases step with
  | sleep d => exact .done inHand
  | fire t =>
    refine .bind ((care_fire inHand.1 inHand.2).mono fun tr r free => ?_)
    cases r <;> exact .done free

def Again (tr : Trail) (r : Option Node.Loop) : Prop := Free tr ∧ GoesOnFiring r

theorem care_rest (stop : SignalId) (last : Nat) (free : Free tr) :
    Obeys (care node) Again tr (Node.Deferred.rest node.shared stop (.fire stop last)) := by
  have again : GoesOnFiring (some (Node.Loop.fire stop last)) := fun l h =>
    ⟨stop, last, (Option.some.inj h).symm⟩
  refine .bind ((care_nextStep free).mono fun tr step inHand => ?_)
  refine .bind ((care_pauseAfter inHand).mono fun tr pause free => ?_)
  cases pause with
  | none => exact .done ⟨free, again⟩
  | some d =>
    refine .bind (.request (free.careful trivial) fun ended _ => ?_)
    have free₁ := free.plain (r := .pauseUnlessStopped d stop) rfl ended
    cases ended with
    | abandoned => exact .done ⟨free₁, fun l h => by cases h⟩
    | value _ => exact .done ⟨free₁, again⟩
    | raised => exact .done ⟨free₁, again⟩

theorem care_firing (stop : SignalId) (last : Nat) (free : Free tr) :
    Obeys (care node) Again tr (Node.Deferred.round node.shared stop last) := by
  refine .bind (.request (free.careful trivial) fun raised _ => ?_)
  have free₁ := free.plain (r := .isRaised stop) rfl raised
  cases raised with
  | true => exact .done ⟨free₁, fun l h => by cases h⟩
  | false =>
    refine .bind (.request (free₁.careful trivial) fun now _ => ?_)
    have free₂ := free₁.plain (r := .clock) rfl now
    cases Node.Deferred.resyncDue node.shared last now with
    | true =>
      simp only [if_true]
      exact .bind ((care_resync free₂).mono fun tr r free => care_rest stop now free)
    | false => exact care_rest stop last free₂

end Deferred

end BrokeredCalls.Network
