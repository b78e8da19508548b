import Lopata.Cron.Expression
import Lopata.Lib.Machine
import Lopata.Lib.Table
import Mathlib.Data.List.Basic

/-!
# The Cron Timer

Every generation of a worker has a timer of its own, which goes off some times a minute and looks
at all expressions; a reload stops the timer of the active generation and starts one for the new
generation. What keeps an expression from being fired twice in a minute is a map from expressions
to minutes that belongs to the manager and outlives the generations.

The time only moves forward, and it is turned into local time by a time zone.

## Main results

* `Sound.step`: the invariant is kept by every step.
* `fires_once`: in every state of every run, an expression has been fired at most once in any
  minute, and exactly once in each minute in which a tick of the active generation has found that
  it matches.
-/

namespace Lopata.Cron

/-- `startCronTimer(...)` with what it parses before the first tick. -/
def parseCrons (crons : List Text) : Except Failure (List ParsedCron) := crons.mapM parseCron

/-- `Math.floor(now.getTime() / 60_000)`. -/
def minuteOf (now : ℤ) : ℤ := now / 60000

/-- A call of the handler. -/
structure Firing where
  expression : Text
  now : ℤ
  deriving DecidableEq

/-- The generations of a manager, as far as cron is concerned. -/
structure Scheduler where
  /-- `_cronLastFired`. -/
  lastFiredMinute : Table Text ℤ
  /-- The timers that have not been stopped, by their generation. -/
  timers : Table ℕ (List ParsedCron)
  activeGenId : Option ℕ
  nextGenId : ℕ
  /-- The time of the last tick. -/
  clock : ℤ
  /-- The calls of the handler, newest first. -/
  fired : List Firing
  /-- The expressions that matched at a tick of the active generation, with its time. -/
  due : List Firing

def Scheduler.start (clock : ℤ) : Scheduler where
  lastFiredMinute := Table.empty
  timers := Table.empty
  activeGenId := none
  nextGenId := 1
  clock := clock
  fired := []
  due := []

inductive Label where
  /-- A new generation becomes active, with the expressions of its configuration, or with none if
  it has no worker or cron is not enabled. -/
  | reload (crons : List Text)
  /-- A generation is stopped. -/
  | stop (genId : ℕ)
  /-- The timer of a generation goes off. -/
  | tick (genId : ℕ) (now : ℤ)

namespace Scheduler

variable (zone : ℤ → DateFields) (s : Scheduler)

/-- `stopConsumers`. -/
def stopConsumers (genId : ℕ) : Scheduler := { s with timers := s.timers.erase genId }

/-- `startConsumers`: no expressions, or one that cannot be parsed, start no timer. -/
def startConsumers (genId : ℕ) (crons : List Text) : Scheduler :=
  if crons = [] then s
  else
    match parseCrons crons with
    | .ok parsed => { s with timers := s.timers.insert genId parsed }
    | .error _ => s

/-- The generation that was active is drained. -/
def drainActive : Scheduler :=
  match s.activeGenId with
  | none => s
  | some oldGenId => s.stopConsumers oldGenId

def reload (crons : List Text) : Scheduler :=
  { s.drainActive with
    activeGenId := some s.nextGenId
    nextGenId := s.nextGenId + 1 }.startConsumers s.nextGenId crons

/-- What a tick does about one expression. -/
def fire (now : ℤ) (s : Scheduler) (cron : ParsedCron) : Scheduler :=
  if cronMatchesDate cron (zone now) = false then s
  else if s.lastFiredMinute.get? cron.expression = some (minuteOf now) then s
  else
    { s with
      lastFiredMinute := s.lastFiredMinute.insert cron.expression (minuteOf now)
      fired := ⟨cron.expression, now⟩ :: s.fired }

/-- The expressions that match. -/
def matching (now : ℤ) (parsed : List ParsedCron) : List Firing :=
  (parsed.filter fun cron => cronMatchesDate cron (zone now)).map fun cron =>
    ⟨cron.expression, now⟩

def tick (genId : ℕ) (now : ℤ) (parsed : List ParsedCron) : Scheduler :=
  { parsed.foldl (fire zone now) { s with clock := now } with
    due := if s.activeGenId = some genId then matching zone now parsed ++ s.due else s.due }

def step : Scheduler → Label → Option Scheduler
  | s, .reload crons => some (s.reload crons)
  | s, .stop genId => some (s.stopConsumers genId)
  | s, .tick genId now =>
      if s.clock ≤ now then (s.timers.get? genId).map (s.tick zone genId now) else none

end Scheduler

/-! ### The invariant -/

/-- How often an expression has been fired in a minute. -/
def timesFired (s : Scheduler) (expression : Text) (minute : ℤ) : ℕ :=
  s.fired.countP fun f => f.expression = expression && minuteOf f.now = minute

/-- What holds of the map and the calls of the handler. -/
structure Sound (s : Scheduler) : Prop where
  /-- The map holds a minute in which the expression has been fired, and none is later. -/
  recorded : ∀ expression minute, s.lastFiredMinute.get? expression = some minute →
    minute ≤ minuteOf s.clock ∧ ∃ f ∈ s.fired, f.expression = expression ∧ minuteOf f.now = minute
  last : ∀ f ∈ s.fired, ∃ minute, s.lastFiredMinute.get? f.expression = some minute ∧
    minuteOf f.now ≤ minute
  once : ∀ expression minute, timesFired s expression minute ≤ 1
  due : ∀ d ∈ s.due, ∃ f ∈ s.fired, f.expression = d.expression ∧ minuteOf f.now = minuteOf d.now

theorem sound_start (clock : ℤ) : Sound (Scheduler.start clock) where
  recorded _ _ h := by cases h
  last _ h := by cases h
  once _ _ := Nat.zero_le 1
  due _ h := by cases h

variable {zone : ℤ → DateFields} {s t : Scheduler} {now : ℤ} {cron : ParsedCron}

theorem minuteOf_mono {now now' : ℤ} (h : now ≤ now') : minuteOf now ≤ minuteOf now' :=
  Int.ediv_le_ediv (by decide) h

/-- An expression that the map does not hold for a minute has not been fired in it, if no later
minute has come. -/
theorem Sound.not_fired (h : Sound s) {expression : Text} {minute : ℤ}
    (hclock : minuteOf s.clock ≤ minute)
    (hmap : s.lastFiredMinute.get? expression ≠ some minute) :
    timesFired s expression minute = 0 := by
  rw [timesFired, List.countP_eq_zero]
  intro f hf hboth
  simp only [Bool.and_eq_true, decide_eq_true_eq] at hboth
  obtain ⟨rfl, rfl⟩ := hboth
  obtain ⟨held, hheld, hle⟩ := h.last f hf
  have hge := (h.recorded _ _ hheld).1
  have heq : held = minuteOf f.now := by omega
  exact hmap (heq ▸ hheld)

variable (zone) in
/-- What a tick does about one expression keeps the invariant, at the time of the tick. -/
theorem Sound.fire (h : Sound s) (hclock : s.clock = now) (cron : ParsedCron) :
    Sound (s.fire zone now cron) := by
  unfold Scheduler.fire
  split
  · exact h
  · split
    · exact h
    · next hmap =>
        refine ⟨fun expression minute hget => ?_, fun f hf => ?_, fun expression minute => ?_,
          fun d hd => ?_⟩
        · have hget : (s.lastFiredMinute.insert cron.expression (minuteOf now)).get? expression =
              some minute := hget
          rcases Table.of_get?_insert hget with ⟨heq, rfl⟩ | ⟨-, hget⟩
          · refine ⟨le_of_eq (by rw [← hclock]), _, List.mem_cons_self, heq.symm, rfl⟩
          · obtain ⟨hle, f, hf, hboth⟩ := h.recorded expression minute hget
            exact ⟨hle, f, List.mem_cons_of_mem _ hf, hboth⟩
        · show ∃ minute, (s.lastFiredMinute.insert cron.expression (minuteOf now)).get?
            f.expression = some minute ∧ minuteOf f.now ≤ minute
          rw [Table.get?_insert]
          rcases List.mem_cons.mp hf with rfl | hf
          · exact ⟨_, if_pos rfl, le_refl _⟩
          · obtain ⟨held, hheld, hle⟩ := h.last f hf
            split
            · refine ⟨_, rfl, hle.trans ?_⟩
              rw [← hclock]
              exact (h.recorded _ _ hheld).1
            · exact ⟨held, hheld, hle⟩
        · show timesFired { s with
            lastFiredMinute := s.lastFiredMinute.insert cron.expression (minuteOf now)
            fired := ⟨cron.expression, now⟩ :: s.fired } expression minute ≤ 1
          rw [timesFired, List.countP_cons]
          simp only [Bool.and_eq_true, decide_eq_true_eq]
          change timesFired s expression minute + _ ≤ 1
          split
          · next hboth =>
              obtain ⟨rfl, rfl⟩ := hboth
              rw [h.not_fired (le_of_eq (by rw [hclock])) hmap]
          · exact h.once expression minute
        · obtain ⟨f, hf, hboth⟩ := h.due d hd
          exact ⟨f, List.mem_cons_of_mem _ hf, hboth⟩

/-- After a tick has looked at a matching expression, it has been fired in this minute. -/
theorem exists_fired_fire (h : Sound s) (hmatch : cronMatchesDate cron (zone now) = true) :
    ∃ f ∈ (s.fire zone now cron).fired, f.expression = cron.expression ∧
      minuteOf f.now = minuteOf now := by
  unfold Scheduler.fire
  rw [if_neg (by rw [hmatch]; exact Bool.noConfusion)]
  split
  · next hmap => exact (h.recorded _ _ hmap).2
  · exact ⟨_, List.mem_cons_self, rfl, rfl⟩

theorem fired_fire_of_mem {f : Firing} (hf : f ∈ s.fired) : f ∈ (s.fire zone now cron).fired := by
  unfold Scheduler.fire
  split
  · exact hf
  · split
    · exact hf
    · exact List.mem_cons_of_mem _ hf

theorem clock_fire : (s.fire zone now cron).clock = s.clock := by
  unfold Scheduler.fire
  split
  · rfl
  · split <;> rfl

variable (zone) in
/-- A tick keeps the invariant, and has fired all expressions that match. -/
theorem Sound.foldl_fire (h : Sound s) (hclock : s.clock = now) (parsed : List ParsedCron) :
    Sound (parsed.foldl (Scheduler.fire zone now) s) ∧
    (parsed.foldl (Scheduler.fire zone now) s).clock = now ∧
    (∀ f ∈ s.fired, f ∈ (parsed.foldl (Scheduler.fire zone now) s).fired) ∧
    ∀ cron ∈ parsed, cronMatchesDate cron (zone now) = true →
      ∃ f ∈ (parsed.foldl (Scheduler.fire zone now) s).fired, f.expression = cron.expression ∧
        minuteOf f.now = minuteOf now := by
  induction parsed generalizing s with
  | nil => exact ⟨h, hclock, fun _ hf => hf, fun _ hc => by cases hc⟩
  | cons cron parsed ih =>
    obtain ⟨hsound, hclock', hkept, hfired⟩ :=
      ih (h.fire zone hclock cron) (clock_fire.trans hclock)
    refine ⟨hsound, hclock', fun f hf => hkept f (fired_fire_of_mem hf), fun c hc hmatch => ?_⟩
    rcases List.mem_cons.mp hc with rfl | hc
    · obtain ⟨f, hf, hboth⟩ := exists_fired_fire h hmatch
      exact ⟨f, hkept f hf, hboth⟩
    · exact hfired c hc hmatch

/-- Time goes by between two ticks. -/
theorem Sound.wait (h : Sound s) (hclock : s.clock ≤ now) : Sound { s with clock := now } where
  recorded expression minute hget := by
    obtain ⟨hle, hfired⟩ := h.recorded expression minute hget
    exact ⟨hle.trans (minuteOf_mono hclock), hfired⟩
  last := h.last
  once := h.once
  due := h.due

theorem Sound.tick (h : Sound s) (hclock : s.clock ≤ now) (genId : ℕ) (parsed : List ParsedCron) :
    Sound (s.tick zone genId now parsed) := by
  obtain ⟨hsound, -, hkept, hfired⟩ := (h.wait hclock).foldl_fire zone rfl parsed
  refine ⟨hsound.recorded, hsound.last, hsound.once, fun d hd => ?_⟩
  have hd : d ∈ if s.activeGenId = some genId then Scheduler.matching zone now parsed ++ s.due
      else s.due := hd
  have hold : d ∈ s.due → ∃ f ∈ (s.tick zone genId now parsed).fired,
      f.expression = d.expression ∧ minuteOf f.now = minuteOf d.now := by
    intro hd
    obtain ⟨f, hf, hboth⟩ := h.due d hd
    exact ⟨f, hkept f hf, hboth⟩
  split at hd
  · rcases List.mem_append.mp hd with hnew | hd
    · obtain ⟨cron, hcron, rfl⟩ := List.mem_map.mp hnew
      obtain ⟨hmem, hmatch⟩ := List.mem_filter.mp hcron
      exact hfired cron hmem hmatch
    · exact hold hd
  · exact hold hd

/-- The timers and the active generation do not matter to the invariant. -/
theorem Sound.congr (h : Sound s) (hmap : t.lastFiredMinute = s.lastFiredMinute)
    (hclock : t.clock = s.clock) (hfired : t.fired = s.fired) (hdue : t.due = s.due) :
    Sound t where
  recorded := by
    rw [hmap, hclock, hfired]
    exact h.recorded
  last := by
    rw [hmap, hfired]
    exact h.last
  once := by
    unfold timesFired
    rw [hfired]
    exact h.once
  due := by
    rw [hdue, hfired]
    exact h.due

theorem Sound.startConsumers (h : Sound s) (genId : ℕ) (crons : List Text) :
    Sound (s.startConsumers genId crons) := by
  unfold Scheduler.startConsumers
  split
  · exact h
  · split
    · exact h.congr rfl rfl rfl rfl
    · exact h

theorem Sound.drainActive (h : Sound s) : Sound s.drainActive := by
  unfold Scheduler.drainActive
  split
  · exact h
  · exact h.congr rfl rfl rfl rfl

/-- The invariant is kept by every step. -/
theorem Sound.step {a : Label} (h : Sound s) (hstep : Scheduler.step zone s a = some t) :
    Sound t := by
  cases a with
  | reload crons =>
    obtain rfl := Option.some.inj hstep
    have hdrained : Sound { s.drainActive with
        activeGenId := some s.nextGenId
        nextGenId := s.nextGenId + 1 } := h.drainActive.congr rfl rfl rfl rfl
    exact hdrained.startConsumers s.nextGenId crons
  | stop genId =>
    obtain rfl := Option.some.inj hstep
    exact h.congr rfl rfl rfl rfl
  | tick genId now =>
    have hstep : (if s.clock ≤ now then (s.timers.get? genId).map (s.tick zone genId now)
        else none) = some t := hstep
    split at hstep
    · next hclock =>
        obtain ⟨parsed, -, rfl⟩ := Option.map_eq_some_iff.mp hstep
        exact h.tick hclock genId parsed
    · cases hstep

/-- What has been found to match has been fired, and only once in the minute. -/
theorem Sound.timesFired_of_due (h : Sound s) {d : Firing} (hd : d ∈ s.due) :
    timesFired s d.expression (minuteOf d.now) = 1 := by
  obtain ⟨f, hf, hexpression, hminute⟩ := h.due d hd
  have hpos : 0 < timesFired s d.expression (minuteOf d.now) := by
    rw [timesFired, List.countP_pos_iff]
    exact ⟨f, hf, by simp only [hexpression, hminute, decide_true, Bool.and_self]⟩
  have hle := h.once d.expression (minuteOf d.now)
  omega

/-- In every state of every run, an expression has been fired at most once in any minute, and
exactly once in each minute in which a tick of the active generation has found a match. -/
theorem fires_once (zone : ℤ → DateFields) (clock : ℤ) (run : List Label) :
    Throughout (Scheduler.step zone)
      (fun s => (∀ expression minute, timesFired s expression minute ≤ 1) ∧
        ∀ d ∈ s.due, timesFired s d.expression (minuteOf d.now) = 1)
      (Scheduler.start clock) run :=
  (Along.of_forall fun _ _ => trivial : Along (Scheduler.step zone) unguarded _ run).throughout
    (sound_start clock) (fun _ h => ⟨h.once, fun _ hd => h.timesFired_of_due hd⟩)
    (fun _ _ _ h _ hstep => h.step hstep)

end Lopata.Cron
