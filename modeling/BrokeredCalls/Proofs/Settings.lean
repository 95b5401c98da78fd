import BrokeredCalls.Node.Builder

/-!
What the settings of a node come to. All but the retry settings take effect in the order in which they
were made; the retry settings take effect after them, so that a configuration set as a whole replaces
everything before it except these.
-/

namespace BrokeredCalls

/-- The retry settings in force, or the default ones, with a change. -/
def Config.changeRetry (c : Config) (f : RetryConfig → RetryConfig) : Config :=
  { c with retry := some (f (c.retry.getD .default)) }

namespace Setting

def isRetry : Setting → Bool
  | retryMaxAttempts _ | retryMultiplier _ | retryInitialDelay _ | retryMaxDelay _ => true
  | _ => false

def isConfig : Setting → Bool
  | config _ => true
  | _ => false

def on (c : Config) : Setting → Config
  | config c' => c'
  | callTimeout d => { c with callTimeout := d }
  | readBlock d => { c with readBlock := d }
  | replyTtl d => { c with replyTtl := d }
  | maxQueueLength n => { c with maxQueueLength := n }
  | group g => { c with group := g }
  | pollInterval d => { c with pollInterval := d }
  | loopBackoff d => { c with loopBackoff := d }
  | reloadInterval d => { c with reloadInterval := some d }
  | retryMaxAttempts n => c.changeRetry fun r => { r with maxAttempts := n }
  | retryMultiplier m => c.changeRetry fun r => { r with multiplier := m }
  | retryInitialDelay d => c.changeRetry fun r => { r with initialDelay := d }
  | retryMaxDelay d => c.changeRetry fun r => { r with maxDelay := d }

def inOrder (c : Config) (settings : List Setting) : Config := settings.foldl on c

def retriesLast (settings : List Setting) : List Setting :=
  settings.filter (!·.isRetry) ++ settings.filter (·.isRetry)

theorem inOrder_append (c : Config) (first rest : List Setting) :
    inOrder c (first ++ rest) = inOrder (inOrder c first) rest := List.foldl_append

theorem not_isRetry_of_mem {settings : List Setting} {s : Setting}
    (h : s ∈ settings.filter (!·.isRetry)) : s.isRetry = false := by
  simpa using (List.mem_filter.mp h).2

theorem isRetry_of_mem {settings : List Setting} {s : Setting}
    (h : s ∈ settings.filter (·.isRetry)) : s.isRetry = true := (List.mem_filter.mp h).2

theorem foldl_put_off {β : Type} {f : β → Setting → β} {r : Setting} {settings : List Setting}
    (swap : ∀ s ∈ settings, ∀ b, f (f b r) s = f (f b s) r) (b : β) :
    settings.foldl f (f b r) = f (settings.foldl f b) r := by
  induction settings generalizing b with
  | nil => rfl
  | cons s settings ih =>
    rw [List.foldl_cons, List.foldl_cons, swap s List.mem_cons_self]
    exact ih (fun s hs => swap s (List.mem_cons_of_mem _ hs)) (f b s)

theorem foldl_retriesLast {β : Type} {f : β → Setting → β} {settings : List Setting}
    (swap : ∀ s ∈ settings, s.isRetry = false → ∀ r, r.isRetry = true → ∀ b,
      f (f b r) s = f (f b s) r) (b : β) :
    (retriesLast settings).foldl f b = settings.foldl f b := by
  induction settings generalizing b with
  | nil => rfl
  | cons s settings ih =>
    have hrest : (retriesLast settings).foldl f (f b s) = settings.foldl f (f b s) :=
      ih (fun s hs => swap s (List.mem_cons_of_mem _ hs)) (f b s)
    rw [List.foldl_cons, ← hrest]
    cases hr : s.isRetry with
    | false =>
      simp only [retriesLast, List.filter_cons, hr]
      rfl
    | true =>
      simp only [retriesLast, List.filter_cons, hr, List.foldl_append]
      rw [foldl_put_off]
      · rfl
      · intro u hu
        have hmem := List.mem_cons_of_mem s (List.mem_filter.mp hu).1
        exact swap u hmem (not_isRetry_of_mem hu) s hr

theorem on_swap {s r : Setting} (hconfig : s.isConfig = false) (hs : s.isRetry = false)
    (hr : r.isRetry = true) (c : Config) : on (on c r) s = on (on c s) r := by
  cases r with
  | retryMaxAttempts | retryMultiplier | retryInitialDelay | retryMaxDelay =>
    cases s with
    | config => cases hconfig
    | retryMaxAttempts | retryMultiplier | retryInitialDelay | retryMaxDelay => cases hs
    | _ => rfl
  | _ => cases hr

theorem inOrder_retriesLast {settings : List Setting} (h : ∀ s ∈ settings, s.isConfig = false)
    (c : Config) : inOrder c (retriesLast settings) = inOrder c settings :=
  foldl_retriesLast (fun s hmem hs _ hr c => on_swap (h s hmem) hs hr c) c

end Setting

namespace NodeBuilder

open Setting

variable {b : NodeBuilder} {s : Setting}

theorem apply_of_not_isRetry (h : s.isRetry = false) :
    b.apply s = { b with config := on b.config s } := by
  cases s with
  | retryMaxAttempts | retryMultiplier | retryInitialDelay | retryMaxDelay => cases h
  | _ => rfl

theorem apply_swap {r : Setting} (hs : s.isRetry = false) (hr : r.isRetry = true)
    (b : NodeBuilder) : (b.apply r).apply s = (b.apply s).apply r := by
  rw [apply_of_not_isRetry hs, apply_of_not_isRetry hs]
  cases r with
  | retryMaxAttempts | retryMultiplier | retryInitialDelay | retryMaxDelay => rfl
  | _ => cases hr

theorem applyAll_of_not_isRetry {settings : List Setting} (h : ∀ s ∈ settings, s.isRetry = false)
    (b : NodeBuilder) : b.applyAll settings = { b with config := inOrder b.config settings } := by
  induction settings generalizing b with
  | nil => rfl
  | cons s settings ih =>
    show (b.apply s).applyAll settings = _
    rw [apply_of_not_isRetry (h s List.mem_cons_self),
      ih fun s hs => h s (List.mem_cons_of_mem _ hs)]
    rfl

theorem finish_of_no_retry (c : Config) : (NodeBuilder.mk c .none).finish = c := rfl

theorem finish_apply (h : s.isRetry = true) : (b.apply s).finish = on b.finish s := by
  obtain ⟨config, maxAttempts, multiplier, initialDelay, maxDelay⟩ := b
  cases s with
  | retryMaxAttempts | retryMultiplier | retryInitialDelay | retryMaxDelay =>
    cases maxAttempts <;> cases multiplier <;> cases initialDelay <;> cases maxDelay <;> rfl
  | _ => cases h

theorem finish_applyAll {settings : List Setting} (h : ∀ s ∈ settings, s.isRetry = true)
    (b : NodeBuilder) : (b.applyAll settings).finish = inOrder b.finish settings := by
  induction settings generalizing b with
  | nil => rfl
  | cons s settings ih =>
    show ((b.apply s).applyAll settings).finish = inOrder (on b.finish s) settings
    rw [ih fun s hs => h s (List.mem_cons_of_mem _ hs), finish_apply (h s List.mem_cons_self)]

theorem finish_new (settings : List Setting) :
    (new.applyAll settings).finish = inOrder .default (retriesLast settings) := by
  have hreordered : new.applyAll (retriesLast settings) = new.applyAll settings :=
    foldl_retriesLast (fun _ _ hs _ hr b => apply_swap hs hr b) new
  rw [← hreordered, retriesLast, applyAll, List.foldl_append]
  show (applyAll (applyAll new _) _).finish = _
  rw [finish_applyAll fun _ => isRetry_of_mem, applyAll_of_not_isRetry fun _ => not_isRetry_of_mem,
    new, finish_of_no_retry, inOrder_append]

theorem build_eq_ok_iff {brokers sources : List String} {built : Config} :
    b.build brokers sources = .ok built ↔ check brokers sources = .ok () ∧ built = b.finish := by
  unfold build
  cases check brokers sources with
  | ok _ => simp [eq_comm]
  | error e => simp

theorem inOrder_whole {early late : List Setting} (h : ∀ s ∈ late, s.isConfig = false) (c : Config) :
    inOrder .default (retriesLast (early ++ .config c :: late)) =
      inOrder c (early.filter (·.isRetry) ++ late) := by
  have hconfig : ∀ s ∈ early.filter (·.isRetry) ++ late, s.isConfig = false := by
    intro s hs
    rcases List.mem_append.mp hs with hs | hs
    · have hr := isRetry_of_mem hs
      cases s with
      | config => cases hr
      | _ => rfl
    · exact h s hs
  have hnone : (early.filter (·.isRetry)).filter (!·.isRetry) = [] := by
    simp [List.filter_filter]
  have hall : (early.filter (·.isRetry)).filter (·.isRetry) = early.filter (·.isRetry) := by
    simp [List.filter_filter]
  rw [← inOrder_retriesLast hconfig]
  simp only [Setting.retriesLast, List.filter_append, List.filter_cons, hnone, hall, inOrder_append,
    List.nil_append]
  rfl

structure Settled (settings : List Setting) (built : Config) : Prop where
  reordered : built = inOrder .default (retriesLast settings)
  whole : ∀ early c late, settings = early ++ .config c :: late →
    (∀ s ∈ late, s.isConfig = false) → built = inOrder c (early.filter (·.isRetry) ++ late)
  straight : (∀ early c late, settings = early ++ .config c :: late →
    ∀ s ∈ early, s.isRetry = false) → built = inOrder .default settings

theorem exists_last_config {settings : List Setting} (h : ∃ s ∈ settings, s.isConfig = true) :
    ∃ early c late, settings = early ++ .config c :: late ∧ ∀ s ∈ late, s.isConfig = false := by
  induction settings with
  | nil =>
    obtain ⟨s, hs, -⟩ := h
    cases hs
  | cons s settings ih =>
    by_cases hlater : ∃ u ∈ settings, u.isConfig = true
    · obtain ⟨early, c, late, rfl, hlate⟩ := ih hlater
      exact ⟨s :: early, c, late, rfl, hlate⟩
    · have hlate : ∀ u ∈ settings, u.isConfig = false := by simpa using hlater
      obtain ⟨u, hu, hconfig⟩ := h
      rcases List.mem_cons.mp hu with rfl | hu
      · cases u with
        | config c => exact ⟨[], c, settings, rfl, hlate⟩
        | _ => cases hconfig
      · rw [hlate u hu] at hconfig
        cases hconfig

theorem settled_finish (settings : List Setting) : Settled settings (new.applyAll settings).finish where
  reordered := finish_new settings
  whole := by
    rintro early c late rfl hlate
    rw [finish_new, inOrder_whole hlate]
  straight := by
    intro hearly
    rw [finish_new]
    by_cases hconfig : ∃ s ∈ settings, s.isConfig = true
    · obtain ⟨early, c, late, rfl, hlate⟩ := exists_last_config hconfig
      have hnone : early.filter (·.isRetry) = [] := by
        simpa using hearly early c late rfl
      rw [inOrder_whole hlate, hnone, inOrder_append .default early]
      rfl
    · exact inOrder_retriesLast (by simpa using hconfig) .default

theorem build_settles {settings : List Setting} {brokers sources : List String} {built : Config}
    (h : (new.applyAll settings).build brokers sources = .ok built) : Settled settings built := by
  obtain ⟨-, rfl⟩ := build_eq_ok_iff.mp h
  exact settled_finish settings

/-- A retry setting that is followed by a configuration without retries. -/
def followed : List Setting := [.retryMaxAttempts 7, .config .default, .group "jobs"]

def kept : Config := { Config.default with
  group := "jobs"
  retry := some { RetryConfig.default with maxAttempts := 7 } }

theorem build_followed : (new.applyAll followed).build ["main"] ["main"] = .ok kept :=
  build_eq_ok_iff.mpr ⟨rfl, by decide⟩

theorem settles_followed :
    (new.applyAll followed).build ["main"] ["main"] = .ok kept ∧ Settled followed kept :=
  ⟨build_followed, build_settles build_followed⟩

theorem not_settings_in_order :
    ¬ ∀ (settings : List Setting) (brokers sources : List String) (built : Config),
      (new.applyAll settings).build brokers sources = .ok built → built = inOrder .default settings := by
  intro hall
  exact absurd (hall followed _ _ kept build_followed) (by decide)

end NodeBuilder
end BrokeredCalls
