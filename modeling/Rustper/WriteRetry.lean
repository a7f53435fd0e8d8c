import Mathlib.Algebra.BigOperators.Ring.List
import Rustper.Defaults
import Rustper.Library.Duration
import Rustper.Sink

/-!
`write_with_retry` as a function of what its calls return, with the pauses as durations of
the machine. The step relation of the sink runtime follows it call by call.
-/
namespace Rustper.Sink

open Clock (Duration)

/-- The delivery settings as `delivery_settings!` makes them: the backoffs are durations. -/
structure RetryPolicy where
  maxAttempts : ℕ
  initialBackoff : Duration
  maxBackoff : Duration

def retryPolicy (settings : DeliverySettings) (hinitial : settings.retryInitialBackoff < 2 ^ 64)
    (hmax : settings.retryMaxBackoff < 2 ^ 64) : RetryPolicy where
  maxAttempts := settings.retryMaxAttempts
  initialBackoff := .fromMillis settings.retryInitialBackoff hinitial
  maxBackoff := .fromMillis settings.retryMaxBackoff hmax

/-- What the loop has done: its calls of `write_batches`, its pauses and the counters. -/
structure RetryLog where
  calls : List (List EventBatch)
  sleeps : List Duration
  metrics : SinkMetrics

/-- How the function ends: it returns, the doubled backoff panics, or the macro after the
loop does. -/
inductive RetryEnd
  | returned (result : Except String WriteOutcome)
  | overflow
  | unreachable

/-- The loop over the attempts left; `outcomes n` is what the `n`-th call returns. -/
def retryLoop (outcomes : ℕ → Except String WriteOutcome) (batches : List EventBatch)
    (policy : RetryPolicy) : List ℕ → Duration → RetryLog → RetryLog × RetryEnd
  | [], _, log => (log, .unreachable)
  | attempt :: rest, backoff, log =>
    let called := { log with calls := log.calls ++ [batches] }
    match outcomes attempt with
    | .ok outcome => (called, .returned (.ok outcome))
    | .error e =>
      if attempt < policy.maxAttempts then
        let slept :=
          { called with
            metrics := { log.metrics with retries := log.metrics.retries + 1 }
            sleeps := log.sleeps ++ [backoff] }
        match (backoff.mul 2).map (Duration.min · policy.maxBackoff) with
        | none => (slept, .overflow)
        | some next => retryLoop outcomes batches policy rest next slept
      else
        ({ called with
            metrics := { log.metrics with writeErrors := log.metrics.writeErrors + 1 } },
          .returned (.error e))

def writeWithRetry (outcomes : ℕ → Except String WriteOutcome) (batches : List EventBatch)
    (policy : RetryPolicy) (metrics : SinkMetrics) : RetryLog × RetryEnd :=
  retryLoop outcomes batches policy (List.range' 1 policy.maxAttempts) policy.initialBackoff
    ⟨[], [], metrics⟩

/-- The pause after the failure of attempt `i + 1`, in milliseconds. -/
def pause (settings : DeliverySettings) (i : ℕ) : ℕ :=
  min (settings.retryInitialBackoff * 2 ^ i) settings.retryMaxBackoff

/-- The attempt that ends the loop, if it is attempt `n`: no call before it succeeded, and
it does or is the last. -/
def Ends (outcomes : ℕ → Except String WriteOutcome) (maxAttempts n : ℕ) : Prop :=
  1 ≤ n ∧ n ≤ maxAttempts ∧ (∀ j, 1 ≤ j → j < n → (outcomes j).toBool = false) ∧
    ((outcomes n).toBool = true ∨ n = maxAttempts)

/-- The `k`-th call is the first that succeeds. -/
def FirstSuccess (outcomes : ℕ → Except String WriteOutcome) (k : ℕ) : Prop :=
  1 ≤ k ∧ (outcomes k).toBool = true ∧ ∀ j, 1 ≤ j → j < k → (outcomes j).toBool = false

variable {settings : DeliverySettings} {outcomes : ℕ → Except String WriteOutcome}
  {batches : List EventBatch}

theorem pause_lt (hmax : settings.retryMaxBackoff < 2 ^ 64) (i : ℕ) : pause settings i < 2 ^ 64 :=
  Nat.lt_of_le_of_lt (Nat.min_le_right _ _) hmax

theorem pause_zero (h : settings.retryInitialBackoff ≤ settings.retryMaxBackoff) :
    pause settings 0 = settings.retryInitialBackoff := by
  rw [pause, pow_zero, Nat.mul_one]
  exact Nat.min_eq_left h

theorem pause_succ (settings : DeliverySettings) (i : ℕ) :
    pause settings (i + 1) = min (pause settings i * 2) settings.retryMaxBackoff := by
  rw [pause, pause, pow_succ, ← Nat.mul_assoc]
  omega

/-- The pause as the loop keeps it. -/
def pauseDuration (settings : DeliverySettings) (hmax : settings.retryMaxBackoff < 2 ^ 64)
    (i : ℕ) : Duration :=
  .fromMillis (pause settings i) (pause_lt hmax i)

theorem next_backoff (hmax : settings.retryMaxBackoff < 2 ^ 64) (i : ℕ) :
    ((pauseDuration settings hmax i).mul 2).map
        (Duration.min · (.fromMillis settings.retryMaxBackoff hmax)) =
      some (pauseDuration settings hmax (i + 1)) := by
  have hnext := pause_lt hmax (i + 1)
  rw [pause_succ] at hnext
  rw [pauseDuration, Duration.double_fromMillis _ _ hnext]
  simp only [pauseDuration, pause_succ]

theorem Ends.of_firstSuccess {maxAttempts n k : ℕ} (h : Ends outcomes maxAttempts n)
    (hk : FirstSuccess outcomes k) : n = min k maxAttempts := by
  obtain ⟨hone, hle, hbefore, hend⟩ := h
  obtain ⟨hkone, hksuccess, hkfirst⟩ := hk
  have hnk : n ≤ k := by
    by_contra hlt
    have := hbefore k hkone (by omega)
    rw [hksuccess] at this
    contradiction
  rcases hend with hsuccess | rfl
  · have hkn : ¬ n < k := by
      intro hlt
      rw [hkfirst n hone hlt] at hsuccess
      contradiction
    omega
  · omega

theorem Ends.of_no_success {maxAttempts n : ℕ} (h : Ends outcomes maxAttempts n)
    (hnone : ∀ k, ¬ FirstSuccess outcomes k) : n = maxAttempts := by
  obtain ⟨hone, hle, hbefore, hend⟩ := h
  rcases hend with hsuccess | hlast
  · exact absurd ⟨hone, hsuccess, hbefore⟩ (hnone n)
  · exact hlast

/-- The log after the attempts `i + 1` to `n`. -/
def RetryLog.after (log : RetryLog) (settings : DeliverySettings)
    (hmax : settings.retryMaxBackoff < 2 ^ 64) (batches : List EventBatch) (i n : ℕ)
    (result : Except String WriteOutcome) : RetryLog where
  calls := log.calls ++ List.replicate (n - i) batches
  sleeps := log.sleeps ++ (List.range' i (n - 1 - i)).map (pauseDuration settings hmax)
  metrics :=
    { log.metrics with
      retries := log.metrics.retries + (n - 1 - i)
      writeErrors := log.metrics.writeErrors + if result.toBool then 0 else 1 }

section Loop

variable {policy : RetryPolicy} {attempt : ℕ} {rest : List ℕ} {backoff next : Duration} {e : String}

theorem retryLoop_ok {outcome : WriteOutcome} (h : outcomes attempt = .ok outcome)
    (log : RetryLog) :
    retryLoop outcomes batches policy (attempt :: rest) backoff log =
      ({ log with calls := log.calls ++ [batches] }, .returned (.ok outcome)) := by
  rw [retryLoop, h]

theorem retryLoop_exhausted (h : outcomes attempt = .error e)
    (hlast : ¬ attempt < policy.maxAttempts) (log : RetryLog) :
    retryLoop outcomes batches policy (attempt :: rest) backoff log =
      ({ log with
          calls := log.calls ++ [batches]
          metrics := { log.metrics with writeErrors := log.metrics.writeErrors + 1 } },
        .returned (.error e)) := by
  rw [retryLoop, h]
  exact if_neg hlast

theorem retryLoop_retry (h : outcomes attempt = .error e) (hmore : attempt < policy.maxAttempts)
    (hnext : (backoff.mul 2).map (Duration.min · policy.maxBackoff) = some next)
    (log : RetryLog) :
    retryLoop outcomes batches policy (attempt :: rest) backoff log =
      retryLoop outcomes batches policy rest next
        { calls := log.calls ++ [batches]
          sleeps := log.sleeps ++ [backoff]
          metrics := { log.metrics with retries := log.metrics.retries + 1 } } := by
  rw [retryLoop, h]
  simp only [hmore, hnext, if_true]

end Loop

variable (batches) in
/-- By induction on the attempts left: the loop ends with one of them, having paused
before every other. -/
theorem retryLoop_spec (hinitial : settings.retryInitialBackoff < 2 ^ 64)
    (hmax : settings.retryMaxBackoff < 2 ^ 64) {i left : ℕ} (hleft : 0 < left)
    (hsum : i + left = settings.retryMaxAttempts)
    (hbefore : ∀ j, 1 ≤ j → j ≤ i → (outcomes j).toBool = false) (log : RetryLog) :
    ∃ n, i < n ∧ Ends outcomes settings.retryMaxAttempts n ∧
      retryLoop outcomes batches (retryPolicy settings hinitial hmax)
          (List.range' (i + 1) left) (pauseDuration settings hmax i) log =
        (log.after settings hmax batches i n (outcomes n), .returned (outcomes n)) := by
  induction left generalizing i log with
  | zero => contradiction
  | succ left ih =>
    have hprevious : ∀ j, 1 ≤ j → j < i + 1 → (outcomes j).toBool = false :=
      fun j hj hlt => hbefore j hj (by omega)
    rw [List.range'_succ]
    cases houtcome : outcomes (i + 1) with
    | ok outcome =>
      refine ⟨i + 1, by omega, ⟨by omega, by omega, hprevious, Or.inl ?_⟩, ?_⟩
      · rw [houtcome]
        rfl
      · rw [retryLoop_ok houtcome]
        simp [houtcome, RetryLog.after, Except.toBool]
    | error e =>
      by_cases hlast : left = 0
      · have hmost : ¬ i + 1 < settings.retryMaxAttempts := by omega
        refine ⟨i + 1, by omega, ⟨by omega, by omega, hprevious, Or.inr (by omega)⟩, ?_⟩
        rw [retryLoop_exhausted houtcome hmost]
        simp [houtcome, RetryLog.after, Except.toBool]
      · have hmore : i + 1 < settings.retryMaxAttempts := by omega
        have hfailed : ∀ j, 1 ≤ j → j ≤ i + 1 → (outcomes j).toBool = false := by
          intro j hj hle
          rcases Nat.lt_or_eq_of_le hle with hlt | rfl
          · exact hprevious j hj hlt
          · rw [houtcome]
            rfl
        obtain ⟨n, hn, hends, hloop⟩ := ih (by omega) (by omega) hfailed
          ⟨log.calls ++ [batches], log.sleeps ++ [pauseDuration settings hmax i],
            { log.metrics with retries := log.metrics.retries + 1 }⟩
        refine ⟨n, by omega, hends, ?_⟩
        rw [retryLoop_retry houtcome hmore (next_backoff hmax i), hloop]
        have hcalls : n - i = (n - (i + 1)) + 1 := by omega
        have hsleeps : n - 1 - i = (n - 1 - (i + 1)) + 1 := by omega
        simp [RetryLog.after, hcalls, hsleeps, List.replicate_succ, List.range'_succ]
        omega

theorem writeWithRetry_eq (hinitial : settings.retryInitialBackoff < 2 ^ 64)
    (hmax : settings.retryMaxBackoff < 2 ^ 64)
    (hbackoff : settings.retryInitialBackoff ≤ settings.retryMaxBackoff)
    (outcomes : ℕ → Except String WriteOutcome) (batches : List EventBatch)
    (metrics : SinkMetrics) :
    ∃ n, Ends outcomes settings.retryMaxAttempts n ∧
      writeWithRetry outcomes batches (retryPolicy settings hinitial hmax) metrics =
        (RetryLog.after ⟨[], [], metrics⟩ settings hmax batches 0 n (outcomes n),
          .returned (outcomes n)) := by
  obtain ⟨n, -, hends, hloop⟩ := retryLoop_spec batches hinitial hmax
    settings.one_le_attempts (Nat.zero_add _)
    (fun j hj hle => by omega : ∀ j, 1 ≤ j → j ≤ 0 → (outcomes j).toBool = false)
    ⟨[], [], metrics⟩
  refine ⟨n, hends, ?_⟩
  simp only [pauseDuration, pause_zero hbackoff] at hloop
  exact hloop

theorem toNanos_pauses (hmax : settings.retryMaxBackoff < 2 ^ 64) (is : List ℕ) :
    (is.map (pauseDuration settings hmax)).map Duration.toNanos =
      is.map fun i => pause settings i * 10 ^ 6 := by
  rw [List.map_map]
  refine List.map_congr_left fun i _ => ?_
  rw [Function.comp_apply, pauseDuration, Duration.toNanos_fromMillis]

section Machine

variable {runtime : Runtime} {s s' : State} {k id now : ℕ} {envelopes : List SinkEnvelope}

/-- How a write task ends that has this result. -/
def taskResult : Except String WriteOutcome → Except WriteError Unit
  | .ok _ => .ok ()
  | .error e => .error (.write e)

/-- What the attempts `i + 1` to `n` of a write leave behind, the call of the first of them
being made already. -/
structure Attempted (settings : DeliverySettings) (s s' : State) (k id : ℕ)
    (envelopes : List SinkEnvelope) (i n : ℕ) (result : Except String WriteOutcome) : Prop where
  done : s'.writes[k]? = some ⟨id, envelopes, .done (taskResult result)⟩
  calls : s'.calls = s.calls ++
    (List.range' (i + 2) (n - 1 - i)).map fun number => ⟨id, number, Sink.batches envelopes⟩
  retries : s'.metrics.retries = s.metrics.retries + (n - 1 - i)
  writeErrors : s'.metrics.writeErrors =
    s.metrics.writeErrors + if result.toBool then 0 else 1
  now : s'.now = s.now + ((List.range' i (n - 1 - i)).map (pause settings)).sum

theorem step_last {i : ℕ}
    (hw : s.writes[k]? = some ⟨id, envelopes, .writing (i + 1) (pause runtime.settings i)⟩)
    (hlast : (outcomes (i + 1)).toBool = true ∨ i + 1 = runtime.settings.retryMaxAttempts) :
    ∃ s', step runtime s (.attempted k (outcomes (i + 1))) = some s' ∧
      Attempted runtime.settings s s' k id envelopes i (i + 1) (outcomes (i + 1)) := by
  have hk : k < s.writes.length := (List.getElem?_eq_some_iff.mp hw).1
  simp only [step, attempted, hw]
  cases houtcome : outcomes (i + 1) with
  | ok outcome =>
    refine ⟨_, rfl, ?_, ?_, ?_, ?_, ?_⟩ <;>
      simp [finish, State.settle, State.record, taskResult, hk, Except.toBool]
  | error e =>
    rw [houtcome] at hlast
    have hmost : ¬ i + 1 < runtime.settings.retryMaxAttempts := by
      rcases hlast with hsuccess | hlast
      · contradiction
      · omega
    simp only [hmost, if_false]
    refine ⟨_, rfl, ?_, ?_, ?_, ?_, ?_⟩ <;>
      simp [finish, State.settle, State.record, taskResult, hk, Except.toBool]

theorem wake_eq {attempt backoff wakeAt : ℕ} (hdue : wakeAt ≤ s.now)
    (hw : s.writes[k]? = some ⟨id, envelopes, .sleeping attempt backoff wakeAt⟩) :
    wake runtime s k = some (call s k ⟨id, envelopes, .sleeping attempt backoff wakeAt⟩
      (attempt + 1) (min (backoff * 2) runtime.settings.retryMaxBackoff)) := by
  simp only [wake, hw, hdue, if_true]

/-- A failure before the last attempt leads, after its pause, to the next call. -/
theorem run_retry {i : ℕ} (e : String) (now : ℕ)
    (hw : s.writes[k]? = some ⟨id, envelopes, .writing (i + 1) (pause runtime.settings i)⟩)
    (hmore : i + 1 < runtime.settings.retryMaxAttempts) :
    ∃ s', (system runtime now).run s
        [.attempted k (.error e), .elapse (pause runtime.settings i), .wake k] = some s' ∧
      s'.writes[k]? =
        some ⟨id, envelopes, .writing (i + 2) (pause runtime.settings (i + 1))⟩ ∧
      s'.calls = s.calls ++ [⟨id, i + 2, Sink.batches envelopes⟩] ∧
      s'.metrics = { s.metrics with retries := s.metrics.retries + 1 } ∧
      s'.now = s.now + pause runtime.settings i := by
  have hk : k < s.writes.length := (List.getElem?_eq_some_iff.mp hw).1
  let slept : State :=
    { s.record { s.metrics with retries := s.metrics.retries + 1 }
        ⟨id, i + 1, .error (.write e)⟩ with
      writes := s.writes.set k ⟨id, envelopes, .sleeping (i + 1) (pause runtime.settings i)
        (s.now + pause runtime.settings i)⟩ }
  have hfailed : (system runtime now).step s (.attempted k (.error e)) = some slept := by
    simp only [system, step, attempted, hw, hmore, if_true, slept]
  let due : State := { slept with now := slept.now + pause runtime.settings i }
  have hsleeping : due.writes[k]? = some ⟨id, envelopes,
      .sleeping (i + 1) (pause runtime.settings i) (s.now + pause runtime.settings i)⟩ := by
    simp [due, slept, hk]
  have hwake : wake runtime due k = _ := wake_eq (Nat.le_refl due.now) hsleeping
  have hrun : (system runtime now).run s
      [.attempted k (.error e), .elapse (pause runtime.settings i), .wake k] =
        wake runtime due k := by
    rw [TransitionSystem.System.run, hfailed]
    exact Option.bind_fun_some _
  refine ⟨_, hrun.trans hwake, ?_, rfl, rfl, rfl⟩
  simp [call, due, slept, hk, pause_succ]

/-- By induction on the attempts that fail before attempt `n`: the runtime can take the
write through them to its end. -/
theorem run_attempts {i n : ℕ} (now : ℕ)
    (hends : Ends outcomes runtime.settings.retryMaxAttempts n) (hlt : i < n)
    (hw : s.writes[k]? = some ⟨id, envelopes, .writing (i + 1) (pause runtime.settings i)⟩) :
    ∃ actions s', (system runtime now).run s actions = some s' ∧
      Attempted runtime.settings s s' k id envelopes i n (outcomes n) := by
  obtain ⟨hone, hle, hbefore, hend⟩ := hends
  induction hleft : n - 1 - i generalizing i s with
  | zero =>
    obtain rfl : n = i + 1 := by omega
    obtain ⟨s', hstep, hattempted⟩ := step_last hw hend
    exact ⟨[.attempted k (outcomes (i + 1))], s',
      Option.bind_eq_some_iff.mpr ⟨s', hstep, rfl⟩, hattempted⟩
  | succ left ih =>
    have hfailed := hbefore (i + 1) (by omega) (by omega)
    cases houtcome : outcomes (i + 1) with
    | ok outcome =>
      rw [houtcome] at hfailed
      contradiction
    | error e =>
      obtain ⟨t, hrun, ht, hcalls, hmetrics, hnow⟩ := run_retry e now hw (by omega)
      obtain ⟨actions, s', hrest, hdone, hcalls', hretries, herrors, hnow'⟩ :=
        ih (by omega) ht (by omega)
      have hmore : n - 1 - i = (n - 1 - (i + 1)) + 1 := by omega
      refine ⟨_, s', TransitionSystem.System.run_append hrun hrest, hdone, ?_, ?_, ?_, ?_⟩
      · rw [hcalls', hcalls, hmore, List.range'_succ, List.append_assoc]
        rfl
      · rw [hretries, hmetrics]
        dsimp only
        omega
      · rw [herrors, hmetrics]
      · rw [hnow', hnow, hmore, List.range'_succ, List.map_cons, List.sum_cons, Nat.add_assoc]

/-- The step relation follows the function: a write that was just spawned can make its
calls and its pauses, and end with its result. -/
theorem run_writeWithRetry (hinitial : runtime.settings.retryInitialBackoff < 2 ^ 64)
    (hmax : runtime.settings.retryMaxBackoff < 2 ^ 64)
    (hbackoff : runtime.settings.retryInitialBackoff ≤ runtime.settings.retryMaxBackoff)
    (now : ℕ) (hw : s.writes[k]? = some ⟨id, envelopes, .spawned⟩)
    (outcomes : ℕ → Except String WriteOutcome) :
    ∃ log result actions s',
      writeWithRetry outcomes (Sink.batches envelopes)
        (retryPolicy runtime.settings hinitial hmax) s.metrics = (log, .returned result) ∧
      (system runtime now).run s actions = some s' ∧
      s'.writes[k]? = some ⟨id, envelopes, .done (taskResult result)⟩ ∧
      (∃ made, s'.calls = s.calls ++ made ∧ made.map Call.batches = log.calls ∧
        made.map Call.number = List.range' 1 log.calls.length) ∧
      s'.metrics.retries = log.metrics.retries ∧
      s'.metrics.writeErrors = log.metrics.writeErrors ∧
      s'.now * 10 ^ 6 = s.now * 10 ^ 6 + (log.sleeps.map Duration.toNanos).sum := by
  obtain ⟨n, hends, hrun⟩ := writeWithRetry_eq hinitial hmax hbackoff outcomes
    (Sink.batches envelopes) s.metrics
  have hk : k < s.writes.length := (List.getElem?_eq_some_iff.mp hw).1
  let begun := call s k ⟨id, envelopes, .spawned⟩ 1 runtime.settings.retryInitialBackoff
  have hbegin : (system runtime now).run s [.begin k] = some begun := by
    refine Option.bind_eq_some_iff.mpr ⟨begun, ?_, rfl⟩
    simp only [system, step, begin, hw, begun]
  have hbegun : begun.writes[k]? =
      some ⟨id, envelopes, .writing (0 + 1) (pause runtime.settings 0)⟩ := by
    simp [begun, call, hk, pause_zero hbackoff]
  obtain ⟨actions, s', hactions, hdone, hcalls, hretries, herrors, hnow⟩ :=
    run_attempts now hends hends.1 hbegun
  obtain ⟨m, rfl⟩ : ∃ m, n = m + 1 := ⟨n - 1, by have := hends.1; omega⟩
  refine ⟨_, _, _, s', hrun, TransitionSystem.System.run_append hbegin hactions, hdone,
    ⟨⟨id, 1, Sink.batches envelopes⟩ :: (List.range' 2 m).map
      fun number => ⟨id, number, Sink.batches envelopes⟩, ?_, ?_, ?_⟩, hretries, herrors, ?_⟩
  · rw [hcalls]
    simp [begun, call]
  · simp [RetryLog.after, List.replicate_succ, Function.comp_def]
  · simp [RetryLog.after, List.range'_succ, Function.comp_def]
  · have hbegun_now : begun.now = s.now := rfl
    dsimp only [RetryLog.after]
    rw [hnow, hbegun_now, List.nil_append, toNanos_pauses, List.sum_map_mul_right, Nat.add_mul]

end Machine

/-- For an accepted configuration and every sequence of outcomes, with `n` the index of the
first success or the last attempt, whichever comes first: `n` calls of the same batches are
made, the result is that of the last of them, the pause after failure `i + 1` is the initial
backoff doubled `i` times up to its limit, and the counters follow. -/
theorem writeWithRetry_spec {config : Config} {entry : Sigma fun _ : String => SinkConfig}
    (hvalid : config.validate = .ok ()) (hentry : entry ∈ config.sinks.entries)
    (hinitial : entry.2.runtimeSettings.retryInitialBackoff < 2 ^ 64)
    (hmax : entry.2.runtimeSettings.retryMaxBackoff < 2 ^ 64)
    (outcomes : ℕ → Except String WriteOutcome) (batches : List EventBatch)
    (metrics : SinkMetrics) :
    ∃ n log, writeWithRetry outcomes batches
        (retryPolicy entry.2.runtimeSettings hinitial hmax) metrics =
          (log, .returned (outcomes n)) ∧
      (∀ k, FirstSuccess outcomes k →
        n = min k entry.2.runtimeSettings.retryMaxAttempts) ∧
      ((∀ k, ¬ FirstSuccess outcomes k) →
        n = entry.2.runtimeSettings.retryMaxAttempts) ∧
      log.calls = List.replicate n batches ∧
      log.sleeps.map Duration.toNanos = (List.range (n - 1)).map (fun i =>
        min (entry.2.runtimeSettings.retryInitialBackoff * 2 ^ i)
          entry.2.runtimeSettings.retryMaxBackoff * 10 ^ 6) ∧
      log.metrics =
        { metrics with
          retries := metrics.retries + log.sleeps.length
          writeErrors := metrics.writeErrors + if (outcomes n).toBool then 0 else 1 } := by
  have hsink := (Config.validate_ok hvalid).2.2.1 entry hentry
  obtain ⟨n, hends, hrun⟩ :=
    writeWithRetry_eq hinitial hmax hsink.backoff outcomes batches metrics
  refine ⟨n, _, hrun, fun k => hends.of_firstSuccess, hends.of_no_success, ?_, ?_, ?_⟩
  · rfl
  · dsimp only [RetryLog.after]
    rw [List.nil_append, toNanos_pauses, Nat.sub_zero, List.range_eq_range']
    simp only [pause]
  · simp [RetryLog.after]

/-- Backoffs at the end of their range, and no attempt asked for. -/
def slowSink : SinkConfig :=
  .kafka { KafkaSinkConfig.defaults ["in"] "localhost:9092" "output" with
    retryMaxAttempts := 0, retryInitialBackoffMs := 9223372036854775808
    retryMaxBackoffMs := 18446744073709551615 }

theorem slowSink_valid : (oneSink slowSink).validate = .ok () := by
  decide

theorem writeWithRetry_spec_slowSink :
    ∃ n log, writeWithRetry (fun _ => .error "refused") []
        (retryPolicy slowSink.runtimeSettings (by decide) (by decide)) ⟨0, 0, 0, 0, 0, 0⟩ =
          (log, .returned (.error "refused")) ∧ n = 1 ∧ log.calls = List.replicate n [] := by
  have hnone : ∀ k, ¬ FirstSuccess (fun _ => .error "refused") k := by
    intro k hk
    have := hk.2.1
    contradiction
  obtain ⟨n, log, hrun, -, hlast, hcalls, -⟩ := writeWithRetry_spec slowSink_valid
    List.mem_cons_self (by decide) (by decide) (fun _ => .error "refused") [] ⟨0, 0, 0, 0, 0, 0⟩
  exact ⟨n, log, hrun, hlast hnone, hcalls⟩

end Rustper.Sink
