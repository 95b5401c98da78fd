import BrokeredCalls.Proofs.Lifetime.Listening
import BrokeredCalls.Proofs.Network.Routing

/-!
Where a deferred call is claimed. A fire pass looks up the route of the service anew, so it claims on the
broker that the call is stored on as long as the service was not moved since the node began to read it.
-/

namespace BrokeredCalls

def Registry.sends (r : Registry) (source service : String) : Prop :=
  ∃ h, r.resolve service = some ⟨h, source⟩

namespace Lifetime

open Broker (Call)
open Network (Credible Ending Job Operation Trail duty ending given round rule)
open Node (Effect Loop Routine Shared Source)
open Program (Asks Obeys)
open Shutdown (Concluded Deals Permitted StoreId Task takes)

theorem Built.brokerOf {s : Shared} (built : Built s) {source : Source} (among : source ∈ s.sources) :
    s.brokerOf source.name = some source.broker := by
  obtain ⟨routed, checked⟩ := built.checked
  exact Shared.brokerOf_of_nodup (NodeBuilder.nodup_of_check checked) among

def brokerOn (s : Shared) (found : Option Route) : Option BrokerId :=
  found.bind fun route => s.brokerOf route.source

abbrev takeOn (b : BrokerId) (d : DelayedTask) : Effect :=
  .broker b (.hashTake (Key.delay d.service) (Decimal.ofInt64 d.fireAt))

abbrev popped (now : FireTime) (d : DelayedTask) : Exchange Node.interface :=
  ⟨.pending (.next now), .due d⟩

inductive Claim (s : Shared) (d : DelayedTask) (found : Option Route) : Trail → Prop
  | dropped (nowhere : brokerOn s found = none) : Claim s d found [⟨.resolve d.service, found⟩]
  | gone (b : BrokerId) (v : Option Bytes) (here : brokerOn s found = some b) (nothing : v.getD [] = []) :
    Claim s d found [⟨takeOn b d, .ok v⟩, ⟨.resolve d.service, found⟩]
  | failed (b : BrokerId) (e : Error) (new : Bool) (here : brokerOn s found = some b) :
    Claim s d found
      [⟨.pending (.insert d), new⟩, ⟨takeOn b d, .error e⟩, ⟨.resolve d.service, found⟩]
  | started (b : BrokerId) (payload : Bytes) (here : brokerOn s found = some b) (call : payload ≠ []) :
    Claim s d found
      [⟨.start
        { broker := b
          service := d.service
          payload := payload
          replyKey := Key.deferredReply d.service d.fireAt
          replyTtl := s.config.replyTtl }, ()⟩,
        ⟨takeOn b d, .ok (some payload)⟩, ⟨.resolve d.service, found⟩]

variable {s : Shared} {storeOf : BrokerId → StoreId} {w w₁ w' : World} {i k : Nat} {t t' : Task}
  {tr newer older : Trail} {x : Exchange Node.interface} {b b' : BrokerId} {d : DelayedTask}
  {now : FireTime} {found : Option Route}

section Firing

def Dealt (s : Shared) (tr : Trail) : Prop :=
  ∀ newer now d older, tr = newer ++ popped now d :: older →
    ∃ found claim, Claim s d found claim ∧ claim <:+ newer

/-- Every due task was dealt with, or the loop is at it. -/
def Pursued (s : Shared) (tr : Trail) : Prop :=
  ∀ newer now d older, tr = newer ++ popped now d :: older →
    ∃ found claim, Claim s d found claim ∧ (claim <:+ newer ∨ newer <:+ claim)

theorem Dealt.pursued (dealt : Dealt s tr) : Pursued s tr := by
  intro newer now d older split
  obtain ⟨found, claim, claims, suffix⟩ := dealt newer now d older split
  exact ⟨found, claim, claims, .inl suffix⟩

theorem Claim.takes_nothing {xs : Trail} (claim : Claim s d found xs) : ∀ x ∈ xs, takes x.1 = false := by
  cases claim <;> simp [takes]

theorem Claim.looks {claim since : Trail} (claims : Claim s d found claim)
    (far : claim <:+ since ∨ since <:+ claim) (went : since ≠ []) :
    ∃ newer, since = newer ++ [⟨.resolve d.service, found⟩] := by
  obtain ⟨rest, rfl⟩ : ∃ rest, claim = rest ++ [⟨.resolve d.service, found⟩] := by
    cases claims with
    | dropped => exact ⟨[], rfl⟩
    | gone b v => exact ⟨[⟨takeOn b d, .ok v⟩], rfl⟩
    | failed b e new => exact ⟨[⟨.pending (.insert d), new⟩, ⟨takeOn b d, .error e⟩], rfl⟩
    | started b payload => exact ⟨[_, ⟨takeOn b d, .ok (some payload)⟩], rfl⟩
  rcases far with ⟨later, rfl⟩ | ⟨missing, same⟩
  · exact ⟨later ++ rest, (List.append_assoc _ _ _).symm⟩
  · obtain ⟨newer, y, rfl⟩ := (List.eq_nil_or_concat' since).resolve_left went
    rw [← List.append_assoc, List.append_singleton_inj] at same
    exact ⟨newer, same.2 ▸ rfl⟩

theorem popped_cases {xs : Trail} {d' : DelayedTask} {now' : FireTime} {older' : Trail}
    (none : ∀ x ∈ xs, takes x.1 = false)
    (split : xs ++ popped now d :: older = newer ++ popped now' d' :: older') :
    newer = xs ∧ d' = d ∨ ∃ rest, newer = xs ++ popped now d :: rest ∧ older = rest ++ popped now' d' :: older' := by
  induction xs generalizing newer with
  | nil =>
    cases newer with
    | nil =>
      cases split
      exact .inl ⟨rfl, rfl⟩
    | cons y rest =>
      obtain ⟨rfl, rfl⟩ := List.cons.inj split
      exact .inr ⟨rest, rfl, rfl⟩
  | cons z xs ih =>
    obtain ⟨first, others⟩ := List.forall_mem_cons.mp none
    cases newer with
    | nil =>
      obtain ⟨rfl, -⟩ := List.cons.inj split
      cases first
    | cons y newer =>
      obtain ⟨same, split'⟩ := List.cons.inj split
      subst same
      rcases ih others split' with ⟨rfl, same⟩ | ⟨rest, rfl, before⟩
      · exact .inl ⟨rfl, same⟩
      · exact .inr ⟨rest, rfl, before⟩

namespace Dealt

theorem nil : Dealt s [] := by
  intro newer now d older split
  cases newer <;> cases split

theorem cons (dealt : Dealt s tr) (none : ∀ now d, x ≠ popped now d) : Dealt s (x :: tr) := by
  intro newer now d older split
  cases newer with
  | nil => exact absurd (List.cons.inj split).1 (none now d)
  | cons y newer =>
    obtain ⟨rfl, rfl⟩ := List.cons.inj split
    obtain ⟨found, claim, claims, suffix⟩ := dealt newer now d older rfl
    exact ⟨found, claim, claims, suffix.trans (List.suffix_cons _ _)⟩

theorem other {r : Effect} {a : r.Answer} (dealt : Dealt s tr) (h : takes r = false) :
    Dealt s (⟨r, a⟩ :: tr) := by
  refine dealt.cons ?_
  rintro now d ⟨⟩
  cases h

theorem pursues (dealt : Dealt s older) {xs claim : Trail} (claims : Claim s d found claim)
    (far : xs <:+ claim) : Pursued s (xs ++ popped now d :: older) := by
  intro newer now' d' older' split
  rcases popped_cases (fun x hx => claims.takes_nothing x (far.subset hx)) split with
    ⟨rfl, rfl⟩ | ⟨rest, rfl, before⟩
  · exact ⟨found, claim, claims, .inr far⟩
  · obtain ⟨found', claim', claims', suffix⟩ := dealt rest now' d' older' before
    refine ⟨found', claim', claims', .inl (suffix.trans ?_)⟩
    exact (List.suffix_cons _ _).trans (List.suffix_append _ _)

theorem claimed (dealt : Dealt s older) {claim : Trail} (claims : Claim s d found claim) :
    Dealt s (claim ++ popped now d :: older) := by
  intro newer now' d' older' split
  rcases popped_cases claims.takes_nothing split with ⟨rfl, rfl⟩ | ⟨rest, rfl, before⟩
  · exact ⟨found, newer, claims, List.suffix_refl _⟩
  · obtain ⟨found', claim', claims', suffix⟩ := dealt rest now' d' older' before
    refine ⟨found', claim', claims', suffix.trans ?_⟩
    exact (List.suffix_cons _ _).trans (List.suffix_append _ _)

end Dealt

abbrev pursuing (s : Shared) : Conduct Node.interface := ⟨fun _ _ => True, fun tr _ => Pursued s tr⟩

theorem dealt_fire (dealt : Dealt s older) : Obeys (pursuing s) (fun tr _ => Dealt s tr)
    (popped now d :: older) (Node.Deferred.fire s d).run := by
  have begun : Pursued s (popped now d :: older) :=
    dealt.pursues (@Claim.dropped s d none rfl) List.nil_suffix
  refine .bindExcept (.lift (.bind (.request begun fun found _ => .done ?_)))
  cases here : found.bind fun route => s.brokerOf route.source with
  | none => exact .done (dealt.claimed (.dropped here))
  | some b =>
    have looked : Pursued s (⟨.resolve d.service, found⟩ :: popped now d :: older) :=
      dealt.pursues (.gone b none here rfl) (List.suffix_cons _ _)
    refine .bindExcept (.lift (.request looked fun taken _ => ?_))
    cases taken with
    | error e =>
      have failed : Pursued s
          (⟨takeOn b d, .error e⟩ :: ⟨.resolve d.service, found⟩ :: popped now d :: older) :=
        dealt.pursues (.failed b e true here) (List.suffix_cons _ _)
      exact .bindExcept (.lift (.request failed fun new _ => .done (dealt.claimed (.failed b e new here))))
    | ok v =>
      cases v with
      | none => exact .done (dealt.claimed (.gone b none here rfl))
      | some payload =>
        cases payload with
        | nil => exact .done (dealt.claimed (.gone b (some []) here rfl))
        | cons byte bytes =>
          have call : byte :: bytes ≠ [] := List.cons_ne_nil _ _
          have took : Pursued s (⟨takeOn b d, .ok (some (byte :: bytes))⟩ ::
              ⟨.resolve d.service, found⟩ :: popped now d :: older) :=
            dealt.pursues (.started b _ here call) (List.suffix_cons _ _)
          exact .lift (.request took fun _ _ => dealt.claimed (.started b _ here call))

theorem dealt_asks {α : Type} {p : Routine α} (h : Asks (fun r => takes r = false) p)
    (dealt : Dealt s tr) : Obeys (pursuing s) (fun tr _ => Dealt s tr) tr p :=
  h.obeys (fun _ _ dealt _ => dealt.pursued) (fun _ _ _ dealt h => dealt.other h) dealt

def Found (s : Shared) (tr : Trail) : Node.Deferred.Step → Prop
  | .fire d => ∃ now older, tr = popped now d :: older ∧ Dealt s older
  | .sleep _ => Dealt s tr

theorem found_nextStep (dealt : Dealt s tr) :
    Obeys (pursuing s) (Found s) tr (Node.Deferred.nextStep s) := by
  refine .bind (.request dealt.pursued fun now _ => ?_)
  have dealt₁ := dealt.other (r := .reading) (a := now) rfl
  refine .bind (.request dealt₁.pursued fun next _ => .done ?_)
  cases next with
  | due d => exact ⟨now, _, rfl, dealt₁⟩
  | later d => exact dealt₁.cons nofun
  | nothing => exact dealt₁.cons nofun

theorem dealt_pauseAfter {step : Node.Deferred.Step} (found : Found s tr step) :
    Obeys (pursuing s) (fun tr _ => Dealt s tr) tr (Node.Deferred.pauseAfter s step) := by
  cases step with
  | sleep d => exact .done found
  | fire d =>
    obtain ⟨now, older, rfl, dealt⟩ := found
    refine .bind ((dealt_fire dealt).mono fun tr r dealt => ?_)
    cases r <;> exact .done dealt

variable {stop : SignalId} {again : Loop}

theorem dealt_rest (dealt : Dealt s tr) :
    Obeys (pursuing s) (fun tr r => Dealt s tr ∧ ∀ l, r = some l → l = again) tr
      (Node.Deferred.rest s stop again) := by
  have goesOn : ∀ l, some again = some l → l = again := fun l same => (Option.some.inj same).symm
  refine .bind ((found_nextStep dealt).mono fun tr step found => ?_)
  refine .bind ((dealt_pauseAfter found).mono fun tr pause dealt => ?_)
  cases pause with
  | none => exact .done ⟨dealt, goesOn⟩
  | some d =>
    refine .bind (.request dealt.pursued fun ended _ => ?_)
    have dealt₁ := dealt.other (r := .pauseUnlessStopped d stop) (a := ended) rfl
    cases ended with
    | abandoned => exact .done ⟨dealt₁, nofun⟩
    | value => exact .done ⟨dealt₁, goesOn⟩
    | raised => exact .done ⟨dealt₁, goesOn⟩

theorem dealt_round (last : Nat) (dealt : Dealt s tr) :
    Obeys (pursuing s) (fun tr r => Dealt s tr ∧ ∀ l, r = some l → fires l = true) tr
      (Node.Deferred.round s stop last) := by
  refine .bind (.request dealt.pursued fun raised _ => ?_)
  have dealt₁ := dealt.other (r := .isRaised stop) (a := raised) rfl
  cases raised with
  | true => exact .done ⟨dealt₁, nofun⟩
  | false =>
    refine .bind (.request dealt₁.pursued fun now _ => ?_)
    have dealt₂ := dealt₁.other (r := .clock) (a := now) rfl
    have rest (again : Loop) (isFire : fires again = true) {tr : Trail} (dealt : Dealt s tr) :
        Obeys (pursuing s) (fun tr r => Dealt s tr ∧ ∀ l, r = some l → fires l = true) tr
          (Node.Deferred.rest s stop again) :=
      (dealt_rest dealt).mono fun tr r h => ⟨h.1, fun l same => h.2 l same ▸ isFire⟩
    cases Node.Deferred.resyncDue s last now with
    | true =>
      simp only [if_true]
      exact .bind ((dealt_asks (Shutdown.asks_resync s) dealt₂).mono fun tr r dealt => rest _ rfl dealt)
    | false => exact rest _ rfl dealt₂

theorem disciplined_pursuing : Disciplined s storeOf (fun j => ∃ l, j = .loop l ∧ fires l = true)
    (fun _ => pursuing s) (fun _ tr v => Dealt s tr ∧ ∀ l, v = .again l → fires l = true) where
  works j its _ := by
    obtain ⟨l, rfl, isFire⟩ := its
    refine .done ⟨.nil, ?_⟩
    rintro _ ⟨⟩
    exact isFire
  again l l' tr _ goesOn := by
    obtain ⟨dealt, isFire⟩ := goesOn
    cases l' with
    | dispatch => cases isFire _ rfl
    | fire stop last =>
      refine .bind ((dealt_round last dealt).mono fun tr r h => ?_)
      cases r with
      | none => exact .done ⟨h.1, nofun⟩
      | some l =>
        refine .done ⟨h.1, ?_⟩
        rintro _ ⟨⟩
        exact h.2 l rfl
  credible _ _ _ := trivial

theorem Reachable.pursued (reachable : Reachable s storeOf w) (here : w.tasks[k]? = some t)
    {last : Nat} (isFire : t.job = .loop (.fire stop last)) : Pursued s t.trail := by
  have keeps := reachable.keeps disciplined_pursuing here ⟨_, isFire, rfl⟩
  obtain ⟨j, work, tr⟩ := t
  cases work with
  | done v => exact keeps.obeys.1.pursued
  | ask r next => exact keeps.obeys.1

end Firing

section Storing

theorem disciplined_ruled : Disciplined s storeOf (fun j => ∃ l, j = .loop l)
    (fun j => ⟨fun r a => True ∧ Credible r a, fun tr r => Permitted s.config.group tr j r ∧ rule s j tr r⟩)
    (fun j tr v => Concluded s j tr v ∧ ending s j tr v) where
  works j _ alone := (Shutdown.permitted_work alone).and (Network.job_obeys j)
  again l l' tr _ goesOn := (Shutdown.permitted_round l l').and (Network.loop_obeys l goesOn.2)
  credible its rule serves := by
    obtain ⟨l, rfl⟩ := its
    refine ⟨trivial, serves.credible ?_⟩
    rintro b rfl
    cases rule.1 with
    | loop h => cases h

theorem exists_read_of_given {e : Delivery} (mem : e ∈ given tr) :
    ∃ b g consumer queues count block ds x, x ∈ tr ∧
      Deals x b ⟨.call (.readGroup g consumer queues count block), .ok ds⟩ ∧ e ∈ ds := by
  induction tr with
  | nil => cases mem
  | cons x tr ih =>
    have before (mem : e ∈ given tr) : ∃ b g consumer queues count block ds y, y ∈ x :: tr ∧
        Deals y b ⟨.call (.readGroup g consumer queues count block), .ok ds⟩ ∧ e ∈ ds := by
      obtain ⟨b, g, consumer, queues, count, block, ds, y, hy, reads⟩ := ih mem
      exact ⟨b, g, consumer, queues, count, block, ds, y, List.mem_cons_of_mem _ hy, reads⟩
    unfold given at mem
    split at mem
    · next same => cases same
    · next same =>
      cases same
      rcases List.mem_append.mp mem with old | new
      · exact before old
      · exact ⟨_, _, _, _, _, _, _, _, List.mem_cons_self, .read .., new⟩
    · next same =>
      cases same
      exact before mem

variable {consumer : String} {services : List String} {stop : SignalId}

theorem of_duty {s : Shared} {e : Delivery} {service f : String} {payload : Bytes}
    (h : duty s b e = some (.broker b' (.hashSet (Key.delay service) f payload))) :
    b' = b ∧ service = e.envelope.service := by
  unfold duty at h
  split at h
  · cases h
  · split at h
    · obtain ⟨rfl, call⟩ := Effect.broker.inj (Option.some.inj h)
      split at call
      · cases call
      · obtain ⟨key, -, -⟩ := Call.hashSet.inj call
        exact ⟨rfl, (Key.delay_injective key).symm⟩
    · cases h

theorem Reachable.stored (reachable : Reachable s storeOf w) (here : w.tasks[k]? = some t)
    (isLoop : t.job = .loop (.dispatch b consumer services stop)) {service f : String} {payload : Bytes}
    {a : Except Error Unit}
    (stored : (⟨.broker b' (.hashSet (Key.delay service) f payload), a⟩ : Exchange Node.interface) ∈
      t.trail) : b' = b ∧ service ∈ services := by
  have conforms : Conduct.Conforms ⟨Credible, rule s (.loop (.dispatch b consumer services stop))⟩ t.trail :=
    isLoop ▸ (reachable.keeps disciplined_ruled here ⟨_, isLoop⟩).conforms.mono (fun _ _ h => h.2)
      fun _ _ h => h.2
  obtain ⟨e, given, its⟩ := Network.given_of_routed conforms (Network.mem_routed stored rfl)
  obtain ⟨rfl, rfl⟩ := of_duty its
  obtain ⟨b, g, consumer', queues, count, block, ds, x, mem, reads, among⟩ := exists_read_of_given given
  obtain ⟨newer, older, split⟩ := List.append_of_mem mem
  obtain ⟨w₀, w₁, reached, served, -⟩ := reachable.exists_served here split
  exact ⟨rfl, (reached.taken (isLoop ▸ served) reads).2 e among⟩

end Storing

section Following

theorem Serves.resolved {service : String} {w₁ : Shutdown.World}
    (serves : Serves s storeOf w (.resolve service) found w₁) : found = w.registry.resolve service := by
  cases serves.itself rfl
  rfl

/-- A service was on the data source of a broker when a spawn listed it, and was registered or routed
elsewhere since. -/
def Elsewhere (s : Shared) (storeOf : BrokerId → StoreId) (b : BrokerId) (service : String)
    (w : World) : Prop :=
  ∃ source ∈ s.sources, source.broker = b ∧ ∃ services w₀ w₁,
    Lists s storeOf w₀ source.name services w₁ ∧ service ∈ services ∧
      Moved s storeOf (fun r => r.sends source.name service) service w₁ w

structure Pursues (s : Shared) (storeOf : BrokerId → StoreId) (b : BrokerId) (d : DelayedTask)
    (w w' : World) (since : Trail) : Prop where
  /-- Before anything else it claims the task, as far as it went: on the broker that the task is stored on,
  or the service was moved. -/
  claims : ∃ found claim, Claim s d found claim ∧ (claim <:+ since ∨ since <:+ claim) ∧
    (since ≠ [] → ∃ w₁, Later s storeOf w w₁ ∧ Later s storeOf w₁ w' ∧
      found = w₁.registry.resolve d.service ∧
        (brokerOn s found = some b ∨ Elsewhere s storeOf b d.service w₁))
  taken : ∀ newer c v x, since = newer ++ [⟨takeOn c d, .ok v⟩, x] → ∃ w₁ w₂,
    Later s storeOf w w₁ ∧ Step s storeOf w₁ w₂ ∧ Later s storeOf w₂ w' ∧
      (w₁.stores (storeOf c)).field (Key.delay d.service) (Decimal.ofInt64 d.fireAt) = v ∧
        (w₂.stores (storeOf c)).field (Key.delay d.service) (Decimal.ofInt64 d.fireAt) = none

variable {u : Task} {consumer : String} {services : List String} {stop stop' : SignalId} {last : Nat}
  {payload : Bytes}

theorem Built.brokerOn (built : Built s) {r : Registry} {source : Source} {service : String}
    (among : source ∈ s.sources) (sends : r.sends source.name service) :
    brokerOn s (r.resolve service) = some source.broker := by
  obtain ⟨h, resolved⟩ := sends
  rw [Lifetime.brokerOn, resolved]
  exact built.brokerOf among

theorem Reachable.routed (reachable : Reachable s storeOf w) (built : Built s)
    (here : w.tasks[i]? = some u) (isLoop : u.job = .loop (.dispatch b consumer services stop))
    {service : String} (mem : service ∈ services) (later : Later s storeOf w w₁) :
    brokerOn s (w₁.registry.resolve service) = some b ∨ Elsewhere s storeOf b service w₁ := by
  obtain ⟨source, among, rfl, w₀, w₀', lists, later'⟩ := reachable.exists_lists here isLoop
  obtain ⟨h, hosted⟩ := Registry.hosts_iff.mp (lists.hosts mem)
  have own (r : Registry) (c : Registration) (other : c.service ≠ service) :
      r.sends source.name service → (c.apply r).sends source.name service := by
    rintro ⟨h, resolved⟩
    exact ⟨h, (c.resolve_apply other).trans resolved⟩
  rcases (later'.trans later).keeps_or_moved own ⟨some h, lists.registry ▸ hosted⟩ with sends | moved
  · exact .inl (built.brokerOn among sends)
  · exact .inr ⟨source, among, rfl, services, w₀, w₀', lists, mem, moved⟩

structure Due (b : BrokerId) (d : DelayedTask) (k : Nat) (w : World) : Prop where
  given : ∃ stop last work now older,
    w.tasks[k]? = some ⟨.loop (.fire stop last), work, popped now d :: older⟩
  stored : ∃ (i : Nat) (u : Task) (b' : BrokerId) (consumer : String) (services : List String)
    (stop : SignalId) (payload : Bytes), w.tasks[i]? = some u ∧
      u.job = .loop (.dispatch b' consumer services stop) ∧
      ⟨.broker b (.hashSet (Key.delay d.service) (Decimal.ofInt64 d.fireAt) payload), .ok ()⟩ ∈ u.trail

theorem Reachable.claims_where_stored (reachable : Reachable s storeOf w) (built : Built s)
    (due : Due b d k w) (later : Later s storeOf w w') : ∃ t t' since, w.tasks[k]? = some t ∧
      w'.tasks[k]? = some t' ∧ t'.trail = since ++ t.trail ∧ Pursues s storeOf b d w w' since := by
  obtain ⟨stop, last, work, now, older, fire⟩ := due.given
  obtain ⟨i, u, b', consumer, services, stop', payload, here, isLoop, stored⟩ := due.stored
  obtain ⟨rfl, reads⟩ := reachable.stored here isLoop stored
  have inside : k < w'.tasks.length :=
    Nat.lt_of_lt_of_le (List.getElem?_eq_some_iff.mp fire).1 later.tasks_le
  have there : w'.tasks[k]? = some w'.tasks[k] := List.getElem?_eq_getElem inside
  obtain ⟨same, since, grown, moments⟩ := later.exists_served fire there
  refine ⟨_, _, since, fire, there, grown, ?_, fun newer c v x split => ?_⟩
  · have pursued := (reachable.later later).pursued there same
    obtain ⟨found, claim, claims, far⟩ := pursued since now d older grown
    refine ⟨found, claim, claims, far, fun went => ?_⟩
    obtain ⟨newer, split⟩ := claims.looks far went
    obtain ⟨w₁, w₂, first, served, last⟩ := moments newer _ [] split
    have looked : found = w₁.registry.resolve d.service := by
      cases served with
      | intro _ serves => exact serves.resolved
    refine ⟨w₁, first, (Later.step .now (.serve served)).trans last, looked, ?_⟩
    exact looked ▸ reachable.routed built here isLoop reads first
  · obtain ⟨w₁, w₂, first, served, last⟩ := moments newer _ [x] split
    have step := Step.serve served
    refine ⟨w₁, w₂, first, step, last, ?_⟩
    cases served with
    | intro _ serves =>
      obtain ⟨_, does⟩ := serves.does (x := ⟨takeOn c d, .ok v⟩) (.call _ _ _ nofun)
      exact ⟨(Hub.taken_of_does does).symm, Hub.field_of_taken does⟩

end Following

section Moved

def wasGiven (d : DelayedTask) : Task → Bool
  | ⟨.loop (.fire ..), _, ⟨.pending (.next _), .due d'⟩ :: _⟩ => d' = d
  | _ => false

def stores (b : BrokerId) (d : DelayedTask) : Exchange Node.interface → Bool
  | ⟨.broker b' (.hashSet key f _), .ok _⟩ =>
    b' = b && key = Key.delay d.service && f = Decimal.ofInt64 d.fireAt
  | _ => false

def hasStored (b : BrokerId) (d : DelayedTask) : Task → Bool
  | ⟨.loop (.dispatch b' ..), _, tr⟩ => b' = b && tr.any (stores b d)
  | _ => false

theorem due_of_tasks (gave : w.tasks[k]?.any (wasGiven d) = true)
    (stored : w.tasks[i]?.any (hasStored b d) = true) : Due b d k w where
  given := by
    obtain ⟨t, here, is⟩ := (Option.any_eq_true _ _).mp gave
    unfold wasGiven at is
    split at is
    · obtain rfl := of_decide_eq_true is
      exact ⟨_, _, _, _, _, here⟩
    · cases is
  stored := by
    obtain ⟨t, here, is⟩ := (Option.any_eq_true _ _).mp stored
    unfold hasStored at is
    split at is
    · obtain ⟨own, some⟩ := Bool.and_eq_true_iff.mp is
      obtain rfl := of_decide_eq_true own
      obtain ⟨x, mem, is⟩ := List.any_eq_true.mp some
      unfold stores at is
      split at is
      · simp only [Bool.and_eq_true, decide_eq_true_eq] at is
        obtain ⟨⟨rfl, rfl⟩, rfl⟩ := is
        exact ⟨i, _, _, _, _, _, _, here, rfl, mem⟩
      · cases is
    · cases is

def appointed : DelayedTask := ⟨0, "s"⟩

/-- A call that is due was stored on the first broker, and the fire loop is about to claim it. -/
def ripe : World :=
  (World.new hosting).play pair id <|
    .begin .spawn :: turns 0 14 ++ .begin (.scheduleAt "s" ⟨0⟩ [7]) :: turns 3 2 ++ turns 2 6 ++ turns 1 5

theorem due_ripe : Due 0 appointed 1 ripe :=
  due_of_tasks (i := 2) (by decide +kernel) (by decide +kernel)

theorem claims_where_stored_ripe : Reachable pair id ripe ∧ Built pair ∧ Due 0 appointed 1 ripe ∧
    Later pair id ripe (ripe.play pair id (turns 1 3)) ∧ ∃ t t' since, ripe.tasks[1]? = some t ∧
      (ripe.play pair id (turns 1 3)).tasks[1]? = some t' ∧ t'.trail = since ++ t.trail ∧
        Pursues pair id 0 appointed ripe (ripe.play pair id (turns 1 3)) since := by
  have reachable : Reachable pair id ripe := reachable_play ..
  have later : Later pair id ripe (ripe.play pair id (turns 1 3)) := .play ..
  exact ⟨reachable, built_pair, due_ripe, later, reachable.claims_where_stored built_pair due_ripe later⟩

/-- A fire loop claims a task on the broker that it is stored on, whatever happens to the registry: it has
once it did two more things. -/
def ClaimsWhereStored (s : Shared) (storeOf : BrokerId → StoreId) : Prop :=
  ∀ (w w' : World) (k : Nat) (b : BrokerId) (d : DelayedTask) (t t' : Task) (since : Trail)
    (payload : Bytes), Reachable s storeOf w → Due b d k w →
      (w.stores (storeOf b)).field (Key.delay d.service) (Decimal.ofInt64 d.fireAt) = some payload →
        Later s storeOf w w' → w.tasks[k]? = some t → w'.tasks[k]? = some t' →
          t'.trail = since ++ t.trail → 2 ≤ since.length → ∃ a, ⟨takeOn b d, a⟩ ∈ since

def claimsOn (b : BrokerId) : Exchange Node.interface → Bool
  | ⟨.broker b' (.hashTake ..), _⟩ => b' = b
  | _ => false

/-- The service is registered on the other broker before the loop looks it up. -/
def astray : World := ripe.play pair id (.register (.host "b" "s" echo) :: turns 1 2)

theorem not_claimsWhereStored : ¬ ClaimsWhereStored pair id := by
  intro always
  have before : ripe.tasks[1]?.any (fun t => t.trail.length = 4) = true := by decide +kernel
  have after : astray.tasks[1]?.any (fun t => t.trail.length = 6 && !t.trail.any (claimsOn 0)) = true := by
    decide +kernel
  obtain ⟨t, here, short⟩ := (Option.any_eq_true _ _).mp before
  obtain ⟨t', there, is⟩ := (Option.any_eq_true _ _).mp after
  obtain ⟨long, none⟩ := Bool.and_eq_true_iff.mp is
  have later : Later pair id ripe astray := .play ..
  obtain ⟨-, since, grown, -⟩ := later.exists_served here there
  have two : 2 ≤ since.length := by
    have total := congrArg List.length grown
    rw [List.length_append, of_decide_eq_true short, of_decide_eq_true long] at total
    omega
  obtain ⟨a, mem⟩ := always ripe astray 1 0 appointed t t' since [7] (reachable_play ..) due_ripe
    (by decide +kernel) later here there grown two
  have claimed : t'.trail.any (claimsOn 0) = true :=
    List.any_eq_true.mpr ⟨_, grown ▸ List.mem_append_left _ mem, rfl⟩
  rw [claimed] at none
  cases none

end Moved

end Lifetime
end BrokeredCalls
