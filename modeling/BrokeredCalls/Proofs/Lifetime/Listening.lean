import BrokeredCalls.Proofs.Hosting
import BrokeredCalls.Proofs.Hub.Passing
import BrokeredCalls.Proofs.Lifetime.Spawning

/-!
What a dispatch loop reads. It reads the services that its spawn found hosted on the data source of its
broker, and it goes on to read them: a service that was hosted then may have been moved elsewhere since.
-/

namespace BrokeredCalls.Lifetime

open Broker (Call)
open Network (Ending Job Operation Trail round)
open Node (Effect Loop Routine Shared Source)
open Program (Obeys)
open Recovery (Handling asks_handle)
open Shutdown (Deals StoreId Task)

theorem Registration.resolve_apply (c : Registration) {r : Registry} {service : String}
    (other : c.service ≠ service) : (c.apply r).resolve service = r.resolve service := by
  cases c <;> exact (Table.find?_set ..).trans (if_neg (Ne.symm other))

theorem Registration.hosts_apply (c : Registration) {r : Registry} {source service : String}
    (other : c.service ≠ service) : (c.apply r).hosts source service = r.hosts source service := by
  rw [Registry.hosts, c.resolve_apply other, Registry.hosts]

variable {s : Shared} {storeOf : BrokerId → StoreId} {w w₁ w' : World} {i k : Nat} {t : Task} {j : Job}
  {tr : Trail} {x : Exchange Node.interface} {b b' : BrokerId} {consumer : String}
  {services : List String} {stop : SignalId}

section Stores

theorem Serves.does {w₁ : Shutdown.World} (serves : Serves s storeOf w x.1 x.2 w₁) {c : Call}
    {v : c.Value} (deals : Deals x b ⟨.call c, .ok v⟩) : ∃ now,
      Hub.Does (w.stores (storeOf b)) now (.call c) (.ok v) (w₁.stores (storeOf b)) := by
  have unheard {e : Error} (failure : failure? e x.1 = some x.2) : False := by
    cases deals <;> cases failure
  obtain ⟨r, a⟩ := x
  cases serves with
  | met serves =>
    cases serves.changed with
    | nothing idle => exact absurd deals (idle _ _)
    | deed _ _ now deals' does =>
      obtain ⟨rfl, rfl⟩ := deals.unique deals'
      exact ⟨now, does⟩
  | failed _ _ failure | lost _ _ _ failure => exact (unheard failure).elim
  | _ => cases deals

theorem Serves.stores {r : Effect} {a : r.Answer} {w₁ : Shutdown.World}
    (serves : Serves s storeOf w r a w₁) (reachable : ∀ i, Hub.Reachable (w.stores i)) (i : StoreId) :
    Hub.Reachable (w₁.stores i) := by
  cases serves with
  | met serves | lost serves => exact serves.changed.reachable reachable i
  | _ => exact reachable i

theorem Reachable.stores (reachable : Reachable s storeOf w) :
    ∀ i, Hub.Reachable (w.stores i) := by
  induction reachable with
  | fresh fresh => exact fresh.stores
  | step _ step ih =>
    cases step with
    | pass | register | begin | again => exact ih
    | @outside n a r h does =>
      intro i
      by_cases same : i = n
      · subst same
        exact (Shutdown.World.store_self _ i h).symm ▸ .done (ih i) does
      · exact (Shutdown.World.store_other same h).symm ▸ ih i
    | serve served =>
      cases served with
      | intro _ serves => exact serves.stores ih

end Stores

section Listing

theorem Serves.listed {name : String} {w₁ : Shutdown.World}
    (serves : Serves s storeOf w (.servicesOn name) services w₁) :
    services = w.registry.servicesOn name := by
  cases serves.itself rfl
  rfl

structure Lists (s : Shared) (storeOf : BrokerId → StoreId) (w : World) (name : String)
    (services : List String) (w' : World) : Prop where
  reachable : Reachable s storeOf w
  asked : ∃ i tr, Served s storeOf w i (.operation .spawn) tr ⟨.servicesOn name, services⟩ w'

theorem Lists.hosts {name service : String} (lists : Lists s storeOf w name services w')
    (mem : service ∈ services) : w.registry.hosts name service = true := by
  obtain ⟨i, tr, served⟩ := lists.asked
  cases served with
  | intro _ serves =>
    have listed : services = w.registry.servicesOn name := serves.listed
    exact Registry.hosts_iff.mpr (Registry.mem_servicesOn.mp (listed ▸ mem))

theorem Lists.registry {name : String} (lists : Lists s storeOf w name services w') :
    w'.registry = w.registry := by
  obtain ⟨i, tr, served⟩ := lists.asked
  exact served.registry

theorem mem_loopsOf {now : Nat} {stop' : SignalId} {served : List (Source × List String)}
    (mem : .dispatch b consumer services stop ∈ loopsOf stop' now served) :
    ∃ source, (source, services) ∈ served ∧ source.broker = b := by
  rcases List.mem_cons.mp mem with first | rest
  · cases first
  · obtain ⟨⟨source, listed⟩, there, same⟩ := List.mem_map.mp rest
    cases same
    exact ⟨source, there, rfl⟩

theorem Reachable.exists_lists (reachable : Reachable s storeOf w) (here : w.tasks[k]? = some t)
    (isLoop : t.job = .loop (.dispatch b consumer services stop)) : ∃ source ∈ s.sources,
      source.broker = b ∧ ∃ w₀ w₁, Lists s storeOf w₀ source.name services w₁ ∧
        Later s storeOf w₁ w := by
  -- A spawn launched the loop, and what the loop serves is in the trail of that spawn.
  obtain ⟨w₂, w₃, i, j, tr, loops, reached, launch, mem, later⟩ := reachable.exists_launch here isLoop
  obtain ⟨rfl, -, stop', now, served, listed, rfl⟩ := reached.chosen launch
  obtain ⟨source, pair, own⟩ := mem_loopsOf mem
  refine ⟨source, listed.among.subset (List.mem_map_of_mem pair), own, ?_⟩
  obtain ⟨newer, older, split⟩ := List.append_of_mem (listed.told _ pair)
  obtain ⟨next, there⟩ := launch.here
  obtain ⟨w₀, w₁, first, asked, later'⟩ := reached.exists_served there split
  exact ⟨w₀, w₁, ⟨first, i, older, asked⟩, (later'.step (.serve launch)).trans later⟩

end Listing

section Moving

variable (s storeOf) in
/-- What was so of a service ended between two moments: it was registered or routed anew. -/
def Moved (P : Registry → Prop) (service : String) (w w' : World) : Prop :=
  ∃ (w₁ : World) (c : Registration), Later s storeOf w w₁ ∧ P w₁.registry ∧ c.service = service ∧
    ¬ P (c.apply w₁.registry) ∧ Later s storeOf { w₁ with registry := c.apply w₁.registry } w'

variable {P : Registry → Prop} {service : String}

theorem Moved.step (moved : Moved s storeOf P service w w₁) (step : Step s storeOf w₁ w') :
    Moved s storeOf P service w w' := by
  obtain ⟨w₂, c, later, before, its, after, later'⟩ := moved
  exact ⟨w₂, c, later, before, its, after, later'.step step⟩

theorem Later.keeps_or_moved (later : Later s storeOf w w')
    (own : ∀ r (c : Registration), c.service ≠ service → P r → P (c.apply r)) (h : P w.registry) :
    P w'.registry ∨ Moved s storeOf P service w w' := by
  induction later with
  | now => exact .inl h
  | @step w₁ w' later step ih =>
    rcases ih with h | moved
    · cases step with
      | pass | outside | begin | again => exact .inl h
      | serve served => exact .inl (served.registry ▸ h)
      | register c =>
        by_cases h' : P (c.apply w₁.registry)
        · exact .inl h'
        · refine .inr ⟨w₁, c, later, h, ?_, h', .now⟩
          exact Classical.byContradiction fun other => h' (own _ c other h)
    · exact .inr (moved.step step)

end Moving

section Reading

def Listening (s : Shared) : Job → Effect → Prop
  | .loop (.dispatch b consumer services stop), r => Handling s.config.group r ∨
    r = .readUnlessStopped b s.config.group consumer services s.config.readCount s.config.readBlock stop
  | _, _ => False

abbrev listening (s : Shared) (j : Job) : Conduct Node.interface :=
  ⟨fun _ _ => True, fun _ => Listening s j⟩

def listens : Job → Prop
  | .loop (.dispatch ..) => True
  | _ => False

theorem listening_dispatch : Obeys (listening s (.loop (.dispatch b consumer services stop)))
    (fun _ r => ∀ l, r = some l → l = .dispatch b consumer services stop) tr
    (Node.Dispatch.round s b consumer services stop) := by
  refine .bind (.request (.inl trivial) fun raised _ => ?_)
  cases raised with
  | true => exact .done nofun
  | false =>
    refine .bind (.request (.inr rfl) fun ended _ => ?_)
    cases ended with
    | abandoned => exact .done nofun
    | raised =>
      refine .done ?_
      rintro _ ⟨⟩
      rfl
    | value result =>
      refine .bind (((asks_handle b s stop result).allowed fun _ _ h => Or.inl h).mono fun _ goesOn _ => ?_)
      cases goesOn with
      | false => exact .done nofun
      | true =>
        refine .done ?_
        rintro _ ⟨⟩
        rfl

theorem disciplined_listening : Disciplined s storeOf listens (listening s)
    (fun j _ v => ∀ l, v = .again l → j = .loop l) where
  works j its _ := by
    cases j with
    | loop l =>
      refine .done ?_
      rintro _ ⟨⟩
      rfl
    | _ => cases its
  again l l' tr its same := by
    cases same l' rfl
    cases l with
    | dispatch =>
      refine .bind (listening_dispatch.mono fun _ r same => ?_)
      cases r with
      | none => exact .done nofun
      | some l =>
        cases same l rfl
        refine .done ?_
        rintro _ ⟨⟩
        rfl
    | fire => cases its
  credible _ _ _ := trivial

theorem Reachable.listening (reachable : Reachable s storeOf w)
    (served : Served s storeOf w k (.loop (.dispatch b consumer services stop)) tr x w') :
    Handling s.config.group x.1 ∨ x.1 = .readUnlessStopped b s.config.group consumer services
      s.config.readCount s.config.readBlock stop := by
  obtain ⟨next, here⟩ := served.here
  exact (reachable.keeps disciplined_listening here trivial).obeys.1

variable {g consumer' : String} {queues : List String} {count : Nat} {block : Duration}
  {ds : List Delivery}

theorem Reachable.taken (reachable : Reachable s storeOf w)
    (served : Served s storeOf w k (.loop (.dispatch b consumer services stop)) tr x w')
    (reads : Deals x b' ⟨.call (.readGroup g consumer' queues count block), .ok ds⟩) :
    b' = b ∧ ∀ d ∈ ds, d.envelope.service ∈ services := by
  obtain ⟨rfl, rfl⟩ : b' = b ∧ queues = services := by
    rcases reachable.listening served with handling | same
    · cases reads with
      | call => exact absurd rfl (Recovery.Handles.not_read handling g consumer' queues count block)
      | read => exact handling.elim
    · cases reads with
      | call => cases same
      | read =>
        cases same
        exact ⟨rfl, rfl⟩
  refine ⟨rfl, fun d mem => ?_⟩
  cases served with
  | intro _ serves =>
    obtain ⟨now, does⟩ := serves.does reads
    rw [Hub.service_of_read (reachable.stores _).wellformed does d mem]
    rcases Hub.took_of_read does with ⟨_, failed, -⟩ | ⟨_, answered, took⟩
    · cases failed
    · cases answered
      exact Network.takeAll_queue took d mem

/-- Why a node reads a service on a broker: it hosted the service on the data source of that broker when
its spawn listed what it hosts. It still does, or the service was moved since. -/
structure Heard (s : Shared) (storeOf : BrokerId → StoreId) (b : BrokerId) (service : String)
    (w : World) : Prop where
  listed : ∃ source ∈ s.sources, source.broker = b ∧ ∃ services w₀ w₁,
    Lists s storeOf w₀ source.name services w₁ ∧ service ∈ services ∧
      w₀.registry.hosts source.name service = true ∧ Later s storeOf w₁ w ∧
        (w.registry.hosts source.name service = true ∨
          Moved s storeOf (fun r => r.hosts source.name service = true) service w₁ w)

theorem Reachable.reads_listed (reachable : Reachable s storeOf w)
    (served : Served s storeOf w k (.loop (.dispatch b consumer services stop)) tr x w')
    (reads : Deals x b' ⟨.call (.readGroup g consumer' queues count block), .ok ds⟩) :
    b' = b ∧ ∀ d ∈ ds, Heard s storeOf b d.envelope.service w := by
  obtain ⟨rfl, own⟩ := reachable.taken served reads
  refine ⟨rfl, fun d mem => ?_⟩
  obtain ⟨next, here⟩ := served.here
  obtain ⟨source, among, its, w₀, w₁, lists, later⟩ := reachable.exists_lists here rfl
  have hosted := lists.hosts (own d mem)
  have still := later.keeps_or_moved (P := fun r => r.hosts source.name d.envelope.service = true)
    (fun r c other h => (c.hosts_apply other).trans h) (lists.registry ▸ hosted)
  exact ⟨source, among, its, services, w₀, w₁, lists, own d mem, hosted, later, still⟩

end Reading

section Rerouted

def given? : Exchange Node.interface → Option (BrokerId × List Delivery)
  | ⟨.readUnlessStopped b .., .value (.ok ds)⟩ => some (b, ds)
  | _ => none

theorem deals_of_given? {ds : List Delivery} (h : given? x = some (b, ds)) :
    ∃ g consumer queues count block,
      Deals x b ⟨.call (.readGroup g consumer queues count block), .ok ds⟩ := by
  unfold given? at h
  split at h
  · cases h
    exact ⟨_, _, _, _, _, .read ..⟩
  · cases h

def together : BrokerId → StoreId := fun _ => 0

/-- After the spawn the service is routed to the other broker, and called there. The loop of the first
one is about to read. -/
def rerouted : World :=
  (World.new hosting).play pair together <|
    .begin .spawn :: turns 0 14 ++ .register (.elsewhere "s" "b") ::
      .begin (.call "s" [1] ⟨5⟩) :: turns 3 2 ++ turns 2 2

def stolen : Delivery := ⟨"s", "0-2", (Envelope.immediate "s" [1]).withEntryId "0-2"⟩

theorem read_rerouted : ∃ tr x w' g consumer queues count block,
    Served pair together rerouted 2 (.loop (.dispatch 0 "n" ["s"] 0)) tr x w' ∧
      Deals x 0 ⟨.call (.readGroup g consumer queues count block), .ok [stolen]⟩ := by
  have takes : (rerouted.turn? pair together 2).any (fun t =>
      t.job = .loop (.dispatch 0 "n" ["s"] 0) && given? t.exchange = some (0, [stolen])) = true := by
    decide +kernel
  obtain ⟨t, turned, is⟩ := (Option.any_eq_true _ _).mp takes
  obtain ⟨loop, gave⟩ := Bool.and_eq_true_iff.mp is
  obtain ⟨g, consumer, queues, count, block, reads⟩ := deals_of_given? (of_decide_eq_true gave)
  have served := of_decide_eq_true loop ▸ served_of_turn? turned
  exact ⟨_, _, _, g, consumer, queues, count, block, served, reads⟩

theorem reads_listed_rerouted : Reachable pair together rerouted ∧
    rerouted.registry.hosts "a" "s" = false ∧ ∃ tr x w' g consumer queues count block,
      Served pair together rerouted 2 (.loop (.dispatch 0 "n" ["s"] 0)) tr x w' ∧
        Deals x 0 ⟨.call (.readGroup g consumer queues count block), .ok [stolen]⟩ ∧
          Heard pair together 0 "s" rerouted := by
  have reachable : Reachable pair together rerouted := reachable_play ..
  obtain ⟨tr, x, w', g, consumer, queues, count, block, served, reads⟩ := read_rerouted
  have heard := (reachable.reads_listed served reads).2 stolen List.mem_cons_self
  exact ⟨reachable, by decide +kernel, tr, x, w', g, consumer, queues, count, block, served, reads, heard⟩

/-- Every immediate call that a dispatch loop takes is of a service that is hosted then, on the data source
of its broker. -/
def TakesHosted (s : Shared) (storeOf : BrokerId → StoreId) : Prop :=
  ∀ (w w' : World) (k : Nat) (b : BrokerId) (consumer : String) (services : List String)
    (stop : SignalId) (tr : Trail) (x : Exchange Node.interface) (g consumer' : String)
    (queues : List String) (count : Nat) (block : Duration) (ds : List Delivery),
    Reachable s storeOf w → Served s storeOf w k (.loop (.dispatch b consumer services stop)) tr x w' →
      Deals x b ⟨.call (.readGroup g consumer' queues count block), .ok ds⟩ → ∀ d ∈ ds,
        d.envelope.isPlaceholder = false → d.envelope.fireAt = none → ∃ source ∈ s.sources,
          source.broker = b ∧ w.registry.hosts source.name d.envelope.service = true

/-- The loop takes the call though no service is hosted any more. -/
theorem not_takesHosted : ¬ TakesHosted pair together := by
  intro always
  obtain ⟨tr, x, w', g, consumer, queues, count, block, served, reads⟩ := read_rerouted
  obtain ⟨source, among, -, hosts⟩ := always rerouted w' _ _ _ _ _ tr x g consumer queues count block _
    (reachable_play ..) served reads stolen List.mem_cons_self rfl rfl
  have none : ∀ source ∈ pair.sources, rerouted.registry.hosts source.name "s" = false := by
    decide +kernel
  exact Bool.false_ne_true ((none source among).symm.trans hosts)

end Rerouted

end BrokeredCalls.Lifetime
