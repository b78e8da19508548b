import Mathlib.Data.List.Basic
import Mathlib.Data.List.Infix
import Mathlib.Logic.Function.Basic
import Lopata.Lib.Machine
import Lopata.WebSocket.Socket

/-!
# Two-Way Lines

What a bridge is for: two ends that post messages to each other and may close. An end hears what
the other has posted, in order; it is closed by its own close event or by the one it hears, and
then nothing reaches it any more. An end can also fail: it is closed from outside, and the other end
is told or not.

## Main results

* `exact_of_step`: what an end hears is what the other has posted, up to what is on its way.
-/

namespace Lopata.WebSocket

inductive End
  | guest
  | host
deriving DecidableEq

def End.other : End → End
  | .guest => .host
  | .host => .guest

@[simp] theorem End.other_other (e : End) : e.other.other = e := by
  cases e <;> rfl

@[simp] theorem End.other_ne (e : End) : e.other ≠ e := by
  cases e <;> decide

@[simp] theorem End.ne_other (e : End) : e ≠ e.other := e.other_ne.symm

/-- The ends of a line, seen from one of them. -/
theorem End.forall_iff {P : End → Prop} (e : End) : (∀ x, P x) ↔ P e ∧ P e.other := by
  constructor
  · exact fun h => ⟨h e, h e.other⟩
  · rintro ⟨hself, hother⟩ x
    cases e <;> cases x <;> assumption

theorem End.eq_or_eq_other (x e : End) : x = e ∨ x = e.other := by
  cases x <;> cases e <;> simp [End.other]

variable {α : Type*}

/-- The messages among events. -/
def messages (l : List (Event α)) : List α :=
  l.filterMap fun
    | .message data => some data
    | .close _ _ => none

/-- Only the last event can be a close event. -/
def ClosesLast (l : List (Event α)) : Prop :=
  ∀ ev ∈ l.dropLast, ev.isClose = false

def HasClose (l : List (Event α)) : Prop :=
  ∃ ev ∈ l, ev.isClose = true

structure Terminal (α : Type*) where
  posted : List (Event α) := []
  heard : List (Event α) := []
  /-- What the other end has posted and this one has not heard. -/
  onWay : List (Event α) := []
  closed : Bool := false
  /-- It has closed itself. -/
  left : Bool := false
  /-- It has failed. -/
  deaf : Bool := false

namespace Terminal

variable (x : Terminal α) (ev : Event α)

def log : Terminal α :=
  { x with posted := x.posted ++ [ev] }

/-- An event set on its way, unless nothing reaches the end. -/
def push : Terminal α :=
  if x.closed || x.deaf then x else { x with onWay := x.onWay ++ [ev] }

/-- The last event an end hears. -/
def finish (left deaf : Bool) : Terminal α :=
  { x with
    heard := x.heard ++ [ev]
    onWay := []
    closed := true
    left := x.left || left
    deaf := x.deaf || deaf }

def hear : Option (Terminal α) :=
  match x.onWay with
  | [] => none
  | ev :: rest =>
      if ev.isClose then some (x.finish ev false false)
      else some { x with heard := x.heard ++ [ev], onWay := rest }

end Terminal

abbrev Duplex (α : Type*) := End → Terminal α

namespace Duplex

/-- An end posts a message, or closes; it hears the next event; it fails, with a close event if it
is still open, and tells the other end or not. -/
inductive Label (α : Type*)
  | post (e : End) (data : α)
  | close (e : End) (ev : Event α)
  | hear (e : End)
  | fail (e : End) (ev : Option (Event α)) (tells : Bool)

variable (d : Duplex α)

def modify (e : End) (f : Terminal α → Terminal α) : Duplex α :=
  Function.update d e (f (d e))

def post (e : End) (ev : Event α) : Duplex α :=
  (d.modify e (·.log ev)).modify e.other (·.push ev)

/-- An end is closed. -/
def shut (e : End) (ev : Event α) (tells left deaf : Bool) : Duplex α :=
  (if tells then d.post e ev else d).modify e (·.finish ev left deaf)

def step : Label α → Option (Duplex α)
  | .post e data => if (d e).closed then none else some (d.post e (.message data))
  | .close e ev =>
      if (d e).closed || !ev.isClose then none else some (d.shut e ev true true false)
  | .hear e => (d e).hear.map fun x => d.modify e fun _ => x
  | .fail e none _ => some (d.modify e fun x => { x with onWay := [], deaf := true })
  | .fail e (some ev) tells =>
      if (d e).closed || !ev.isClose then none else some (d.shut e ev tells false true)

@[simp] theorem modify_self (e : End) (f : Terminal α → Terminal α) :
    d.modify e f e = f (d e) :=
  Function.update_self ..

@[simp] theorem modify_other (e : End) (f : Terminal α → Terminal α) :
    d.modify e f e.other = d e.other :=
  Function.update_of_ne e.other_ne ..

@[simp] theorem modify_other_self (e : End) (f : Terminal α → Terminal α) :
    d.modify e.other f e = d e :=
  Function.update_of_ne e.ne_other ..

@[simp] theorem post_self (e : End) (ev : Event α) : d.post e ev e = (d e).log ev := by
  simp [post]

@[simp] theorem post_other (e : End) (ev : Event α) :
    d.post e ev e.other = (d e.other).push ev := by
  simp [post]

theorem shut_self (e : End) (ev : Event α) (tells left deaf : Bool) :
    d.shut e ev tells left deaf e = { (d e).finish ev left deaf with
      posted := if tells then (d e).posted ++ [ev] else (d e).posted } := by
  cases tells <;> simp [shut, Terminal.finish, Terminal.log]

theorem shut_other (e : End) (ev : Event α) (tells left deaf : Bool) :
    d.shut e ev tells left deaf e.other =
      if tells then (d e.other).push ev else d e.other := by
  cases tells <;> simp [shut]

end Duplex

/-! ### Lists of events -/

theorem messages_append (l l' : List (Event α)) :
    messages (l ++ l') = messages l ++ messages l' :=
  List.filterMap_append ..

theorem messages_close {ev : Event α} (h : ev.isClose = true) : messages [ev] = [] := by
  cases ev with
  | message data => cases h
  | close code reason => rfl

theorem hasClose_append {l l' : List (Event α)} :
    HasClose (l ++ l') ↔ HasClose l ∨ HasClose l' := by
  simp only [HasClose, List.mem_append, or_and_right, exists_or]

theorem hasClose_singleton {ev : Event α} : HasClose [ev] ↔ ev.isClose = true := by
  simp [HasClose]

theorem closesLast_snoc {l : List (Event α)} {ev : Event α} (h : ¬ HasClose l) :
    ClosesLast (l ++ [ev]) := by
  rw [ClosesLast, List.dropLast_concat]
  intro ev' hev'
  by_contra hclose
  exact h ⟨ev', hev', Bool.not_eq_false _ ▸ hclose⟩

/-- Nothing comes after a close event. -/
theorem eq_nil_of_closesLast {l rest : List (Event α)} {ev : Event α}
    (h : ClosesLast (l ++ ev :: rest)) (hev : ev.isClose = true) : rest = [] := by
  by_contra hne
  have hmem : ev ∈ (l ++ ev :: rest).dropLast := by
    rw [List.dropLast_append_of_ne_nil (by simp), List.dropLast_cons_of_ne_nil hne]
    exact List.mem_append_right _ List.mem_cons_self
  rw [h ev hmem] at hev
  cases hev

theorem ClosesLast.prefixed {l l' : List (Event α)} (h : ClosesLast l') (hpre : l <+: l') :
    ClosesLast l := by
  obtain ⟨rest, rfl⟩ := hpre
  intro ev hev
  cases rest with
  | nil =>
    rw [List.append_nil] at h
    exact h ev hev
  | cons x rest =>
    refine h ev ?_
    rw [List.dropLast_append_of_ne_nil (by simp)]
    exact List.mem_append_left _ (List.mem_of_mem_dropLast hev)

theorem prefix_messages {l l' : List (Event α)} (h : l <+: l') : messages l <+: messages l' := by
  obtain ⟨rest, rfl⟩ := h
  rw [messages_append]
  exact List.prefix_append _ _

/-! ### The invariant -/

/-- What an end has heard, and what is on its way, against what the other end has posted. -/
structure Exact (d : Duplex α) : Prop where
  quiet : ∀ e, (d e).closed = true ∨ (d e).deaf = true → (d e).onWay = []
  unclosed : ∀ e, (d e).closed = false → ¬ HasClose (d e).heard
  flow : ∀ e, (d e).closed = false → (d e).deaf = false →
    (d e).heard ++ (d e).onWay = (d e.other).posted
  within : ∀ e, messages (d e).heard <+: messages (d e.other).posted
  heardLast : ∀ e, ClosesLast (d e).heard
  closed : ∀ e, (d e).closed = true → HasClose (d e).heard
  postedLast : ∀ e, ClosesLast (d e).posted
  ceased : ∀ e, HasClose (d e).posted → (d e).closed = true
  left : ∀ e, (d e).left = true → HasClose (d e).posted
  ended : ∀ e, (d e).closed = true → (d e).left = false → (∀ x, (d x).deaf = false) →
    (d e.other).posted = (d e).heard

theorem exact_init : Exact (fun _ => {} : Duplex α) where
  quiet := fun _ _ => rfl
  unclosed := fun _ _ ⟨_, h, _⟩ => by cases h
  flow := fun _ _ _ => rfl
  within := fun _ => List.prefix_refl _
  heardLast := fun _ _ h => by cases h
  closed := fun _ h => by cases h
  postedLast := fun _ _ h => by cases h
  ceased := fun _ ⟨_, h, _⟩ => by cases h
  left := fun _ h => by cases h
  ended := fun _ h => by cases h

variable {d d' : Duplex α} {e : End} {ev : Event α}

/-- The other end, once nothing more is posted to it, or something is. -/
theorem push_quiet {x : Terminal α} (h : x.closed = true ∨ x.deaf = true → x.onWay = [])
    (hover : (x.push ev).closed = true ∨ (x.push ev).deaf = true) : (x.push ev).onWay = [] := by
  unfold Terminal.push at hover ⊢
  split
  · next hor =>
      rw [if_pos hor] at hover
      exact h hover
  · next hnot =>
      rw [if_neg hnot] at hover
      simp only [Bool.or_eq_true] at hnot
      exact absurd hover hnot

theorem push_fields (x : Terminal α) (ev : Event α) :
    (x.push ev).posted = x.posted ∧ (x.push ev).heard = x.heard ∧
      (x.push ev).closed = x.closed ∧ (x.push ev).left = x.left ∧ (x.push ev).deaf = x.deaf := by
  unfold Terminal.push
  split <;> exact ⟨rfl, rfl, rfl, rfl, rfl⟩

theorem told_fields (x : Terminal α) (ev : Event α) (tells : Bool) :
    (if tells then x.push ev else x).posted = x.posted ∧
      (if tells then x.push ev else x).heard = x.heard ∧
      (if tells then x.push ev else x).closed = x.closed ∧
      (if tells then x.push ev else x).left = x.left ∧
      (if tells then x.push ev else x).deaf = x.deaf := by
  cases tells with
  | true => exact push_fields x ev
  | false => exact ⟨rfl, rfl, rfl, rfl, rfl⟩

theorem push_onWay {x : Terminal α} (hclosed : x.closed = false) (hdeaf : x.deaf = false) :
    (x.push ev).onWay = x.onWay ++ [ev] := by
  rw [Terminal.push, hclosed, hdeaf]
  rfl

/-- Nothing that is heard has been posted by an end that is not closed. -/
theorem Exact.not_ended (h : Exact d) (hopen : (d e).closed = false)
    (hended : (d e.other).closed = true → (d e.other).left = false →
      (∀ x, (d x).deaf = false) → (d e).posted = (d e.other).heard)
    (hclosed : (d e.other).closed = true) (hleft : (d e.other).left = false)
    (hdeaf : ∀ x, (d x).deaf = false) : False := by
  have hclose := h.closed e.other hclosed
  rw [← hended hclosed hleft hdeaf] at hclose
  cases hopen.symm.trans (h.ceased e hclose)

/-- **A message is posted** by an end that is not closed. -/
theorem exact_post (h : Exact d) {data : α} (hopen : (d e).closed = false) :
    Exact (d.post e (.message data)) := by
  have hnone : ¬ HasClose (d e).posted := fun hclose => by
    cases hopen.symm.trans (h.ceased e hclose)
  obtain ⟨hposted, hheard, hclosed, hleft, hdeaf⟩ := push_fields (d e.other) (.message data)
  refine ⟨?_, ?_, ?_, ?_, ?_, ?_, ?_, ?_, ?_, ?_⟩
  all_goals refine (End.forall_iff e).mpr ⟨?_, ?_⟩
  all_goals simp only [End.other_other, Duplex.post_self, Duplex.post_other, hposted, hheard,
    hclosed, hleft]
  · exact h.quiet e
  · rw [hdeaf]
    intro hor
    refine push_quiet (h.quiet e.other) ?_
    rw [hclosed, hdeaf]
    exact hor
  · exact h.unclosed e
  · exact h.unclosed e.other
  · exact h.flow e
  · rw [hdeaf]
    intro hopen' hdeaf'
    have hflow := h.flow e.other hopen' hdeaf'
    rw [push_onWay hopen' hdeaf', ← List.append_assoc, hflow, End.other_other]
    rfl
  · exact h.within e
  · refine (h.within e.other).trans (prefix_messages ?_)
    rw [End.other_other]
    exact List.prefix_append _ _
  · exact h.heardLast e
  · exact h.heardLast e.other
  · exact h.closed e
  · exact h.closed e.other
  · exact closesLast_snoc hnone
  · exact h.postedLast e.other
  · intro hclose
    rcases hasClose_append.mp hclose with hclose | hclose
    · exact absurd hclose hnone
    · cases hasClose_singleton.mp hclose
  · exact h.ceased e.other
  · exact fun hleft => absurd (h.left e hleft) hnone
  · exact h.left e.other
  · exact fun hclosed => by cases hopen.symm.trans hclosed
  · intro hclosed' hleft' hdeaf'
    have hdeaf' : ∀ x, (d x).deaf = false := by
      refine (End.forall_iff e).mpr ⟨?_, ?_⟩
      · have := hdeaf' e
        rwa [Duplex.post_self] at this
      · have := hdeaf' e.other
        rwa [Duplex.post_other, hdeaf] at this
    have hended := h.ended e.other
    rw [End.other_other] at hended
    exact (h.not_ended hopen hended hclosed' hleft' hdeaf').elim

/-- **An end is closed**, and tells the other end unless it fails. -/
theorem exact_shut (h : Exact d) {tells left deaf : Bool} (hopen : (d e).closed = false)
    (hev : ev.isClose = true) (htells : left = true → tells = true)
    (hfails : left = false → deaf = true) : Exact (d.shut e ev tells left deaf) := by
  have hnone : ¬ HasClose (d e).posted := fun hclose => by
    cases hopen.symm.trans (h.ceased e hclose)
  have hunclosed := h.unclosed e hopen
  obtain ⟨hposted, hheard, hclosed, hleft, hdeaf⟩ := told_fields (d e.other) ev tells
  refine ⟨?_, ?_, ?_, ?_, ?_, ?_, ?_, ?_, ?_, ?_⟩
  all_goals refine (End.forall_iff e).mpr ⟨?_, ?_⟩
  all_goals simp only [End.other_other, Duplex.shut_self, Duplex.shut_other,
    hposted, hheard, hclosed, hleft, hdeaf, Terminal.finish]
  · exact fun _ => trivial
  · intro hor
    cases tells with
    | true =>
      refine push_quiet (h.quiet e.other) ?_
      obtain ⟨-, -, hclosed, -, hdeaf⟩ := push_fields (d e.other) ev
      rw [hclosed, hdeaf]
      exact hor
    | false => exact h.quiet e.other hor
  · exact fun hfalse => by cases hfalse
  · exact h.unclosed e.other
  · exact fun hfalse => by cases hfalse
  · intro hopen' hdeaf'
    have hflow := h.flow e.other hopen' hdeaf'
    rw [End.other_other] at hflow
    cases tells with
    | true =>
      rw [if_pos rfl, if_pos rfl, push_onWay hopen' hdeaf', ← List.append_assoc, hflow]
    | false => exact hflow
  · rw [messages_append, messages_close hev, List.append_nil]
    exact h.within e
  · have hwithin := h.within e.other
    rw [End.other_other] at hwithin
    cases tells with
    | true => exact hwithin.trans (prefix_messages (List.prefix_append _ _))
    | false => exact hwithin
  · exact closesLast_snoc hunclosed
  · exact h.heardLast e.other
  · exact fun _ => hasClose_append.mpr (.inr (hasClose_singleton.mpr hev))
  · exact h.closed e.other
  · cases tells with
    | true => exact closesLast_snoc hnone
    | false => exact h.postedLast e
  · exact h.postedLast e.other
  · exact fun _ => trivial
  · exact h.ceased e.other
  · intro hor
    have hleft : left = true := by
      cases hself : (d e).left with
      | true => exact absurd (h.left e hself) hnone
      | false =>
        rw [hself] at hor
        exact hor
    rw [if_pos (htells hleft)]
    exact hasClose_append.mpr (.inr (hasClose_singleton.mpr hev))
  · exact h.left e.other
  · intro _ hor hdeaf'
    have hleft : left = false := (Bool.or_eq_false_iff.mp hor).2
    have hself := hdeaf' e
    rw [Duplex.shut_self] at hself
    have hself : ((d e).deaf || deaf) = false := hself
    rw [hfails hleft, Bool.or_true] at hself
    cases hself
  · intro hclosed' hleft' hdeaf'
    have hdeaf' : ∀ x, (d x).deaf = false := by
      refine (End.forall_iff e).mpr ⟨?_, ?_⟩
      · have hself := hdeaf' e
        rw [Duplex.shut_self] at hself
        exact (Bool.or_eq_false_iff.mp hself).1
      · have hself := hdeaf' e.other
        rwa [Duplex.shut_other, hdeaf] at hself
    have hended := h.ended e.other
    rw [End.other_other] at hended
    exact (h.not_ended hopen hended hclosed' hleft' hdeaf').elim

/-- What an end hears is the first event on its way. -/
theorem hear_cases {x x' : Terminal α} (hhear : x.hear = some x') :
    ∃ ev rest, x.onWay = ev :: rest ∧
      ((ev.isClose = true ∧ x' = x.finish ev false false) ∨
        (ev.isClose = false ∧ x' = { x with heard := x.heard ++ [ev], onWay := rest })) := by
  unfold Terminal.hear at hhear
  split at hhear
  · cases hhear
  · next ev rest honWay =>
      refine ⟨ev, rest, honWay, ?_⟩
      split at hhear
      · next hclose => exact .inl ⟨hclose, (Option.some.inj hhear).symm⟩
      · next hmessage =>
          exact .inr ⟨Bool.not_eq_true _ ▸ hmessage, (Option.some.inj hhear).symm⟩

/-- **An end hears** the next event. -/
theorem exact_hear (h : Exact d) {x : Terminal α} (hhear : (d e).hear = some x) :
    Exact (d.modify e fun _ => x) := by
  obtain ⟨ev, rest, honWay, hcases⟩ := hear_cases hhear
  have hreach : ¬ ((d e).closed = true ∨ (d e).deaf = true) := by
    intro hor
    cases honWay.symm.trans (h.quiet e hor)
  have hopen : (d e).closed = false := by simpa using fun hclosed => hreach (.inl hclosed)
  have hhears : (d e).deaf = false := by simpa using fun hdeaf => hreach (.inr hdeaf)
  have hflow := h.flow e hopen hhears
  rw [honWay] at hflow
  have hunclosed := h.unclosed e hopen
  have hnone : ¬ HasClose (d e).posted := fun hclose => by
    cases hopen.symm.trans (h.ceased e hclose)
  have hwithin : messages ((d e).heard ++ [ev]) <+: messages (d e.other).posted := by
    refine prefix_messages ⟨rest, ?_⟩
    rw [← hflow, List.append_assoc, List.singleton_append]
  have hended : ∀ {P : Prop}, (d e.other).closed = true → (d e.other).left = false →
      (∀ x, (d x).deaf = false) → P := by
    intro P hclosed hleft hdeaf
    have hended := h.ended e.other
    rw [End.other_other] at hended
    exact (h.not_ended hopen hended hclosed hleft hdeaf).elim
  rcases hcases with ⟨hclose, rfl⟩ | ⟨hmessage, rfl⟩
  · obtain rfl : rest = [] := eq_nil_of_closesLast (hflow ▸ h.postedLast e.other) hclose
    refine ⟨?_, ?_, ?_, ?_, ?_, ?_, ?_, ?_, ?_, ?_⟩
    all_goals refine (End.forall_iff e).mpr ⟨?_, ?_⟩
    all_goals simp only [End.other_other, Duplex.modify_self, Duplex.modify_other,
      Terminal.finish, Bool.or_false]
    · exact fun _ => trivial
    · exact h.quiet e.other
    · exact fun hfalse => by cases hfalse
    · exact h.unclosed e.other
    · exact fun hfalse => by cases hfalse
    · have hflow := h.flow e.other
      rwa [End.other_other] at hflow
    · exact hwithin
    · have hwithin := h.within e.other
      rwa [End.other_other] at hwithin
    · exact closesLast_snoc hunclosed
    · exact h.heardLast e.other
    · exact fun _ => hasClose_append.mpr (.inr (hasClose_singleton.mpr hclose))
    · exact h.closed e.other
    · exact h.postedLast e
    · exact h.postedLast e.other
    · exact fun _ => trivial
    · exact h.ceased e.other
    · exact h.left e
    · exact h.left e.other
    · exact fun _ _ _ => hflow.symm
    · intro hclosed hleft hdeaf
      refine hended hclosed hleft ((End.forall_iff e).mpr ⟨hhears, ?_⟩)
      have := hdeaf e.other
      rwa [Duplex.modify_other] at this
  · have hstill : ¬ HasClose ((d e).heard ++ [ev]) := by
      rw [hasClose_append, hasClose_singleton, hmessage]
      exact fun hor => hor.elim hunclosed Bool.false_ne_true
    refine ⟨?_, ?_, ?_, ?_, ?_, ?_, ?_, ?_, ?_, ?_⟩
    all_goals refine (End.forall_iff e).mpr ⟨?_, ?_⟩
    all_goals simp only [End.other_other, Duplex.modify_self, Duplex.modify_other]
    · exact fun hor => absurd hor hreach
    · exact h.quiet e.other
    · exact fun _ => hstill
    · exact h.unclosed e.other
    · intro _ _
      rw [List.append_assoc, List.singleton_append]
      exact hflow
    · have hflow := h.flow e.other
      rwa [End.other_other] at hflow
    · exact hwithin
    · have hwithin := h.within e.other
      rwa [End.other_other] at hwithin
    · exact closesLast_snoc hunclosed
    · exact h.heardLast e.other
    · exact fun hclosed => by cases hopen.symm.trans hclosed
    · exact h.closed e.other
    · exact h.postedLast e
    · exact h.postedLast e.other
    · exact h.ceased e
    · exact h.ceased e.other
    · exact h.left e
    · exact h.left e.other
    · exact fun hclosed => by cases hopen.symm.trans hclosed
    · intro hclosed hleft hdeaf
      refine hended hclosed hleft ((End.forall_iff e).mpr ⟨hhears, ?_⟩)
      have := hdeaf e.other
      rwa [Duplex.modify_other] at this

/-- An end fails without an event. -/
theorem exact_deafen (h : Exact d) :
    Exact (d.modify e fun x => { x with onWay := [], deaf := true }) := by
  refine ⟨?_, ?_, ?_, ?_, ?_, ?_, ?_, ?_, ?_, ?_⟩
  all_goals refine (End.forall_iff e).mpr ⟨?_, ?_⟩
  all_goals simp only [End.other_other, Duplex.modify_self, Duplex.modify_other]
  · exact fun _ => trivial
  · exact h.quiet e.other
  · exact h.unclosed e
  · exact h.unclosed e.other
  · exact fun _ hfalse => by cases hfalse
  · have hflow := h.flow e.other
    rwa [End.other_other] at hflow
  · exact h.within e
  · have hwithin := h.within e.other
    rwa [End.other_other] at hwithin
  · exact h.heardLast e
  · exact h.heardLast e.other
  · exact h.closed e
  · exact h.closed e.other
  · exact h.postedLast e
  · exact h.postedLast e.other
  · exact h.ceased e
  · exact h.ceased e.other
  · exact h.left e
  · exact h.left e.other
  all_goals
    intro _ _ hdeaf
    have hself := hdeaf e
    rw [Duplex.modify_self] at hself
    cases hself

/-- **What an end hears** is what the other end has posted, in every run. -/
theorem exact_of_step {a : Duplex.Label α} (h : Exact d) (hstep : d.step a = some d') :
    Exact d' := by
  cases a with
  | post e data =>
    simp only [Duplex.step] at hstep
    split at hstep
    · cases hstep
    · next hopen =>
        obtain rfl := Option.some.inj hstep
        exact exact_post h (Bool.not_eq_true _ ▸ hopen)
  | close e ev =>
    simp only [Duplex.step] at hstep
    split at hstep
    · cases hstep
    · next hopen =>
        obtain rfl := Option.some.inj hstep
        simp only [Bool.or_eq_true, not_or, Bool.not_eq_true', Bool.not_eq_true,
          Bool.not_eq_false] at hopen
        exact exact_shut h hopen.1 hopen.2 (fun _ => rfl) fun hfalse => by cases hfalse
  | hear e =>
    obtain ⟨x, hx, rfl⟩ := Option.map_eq_some_iff.mp hstep
    exact exact_hear h hx
  | fail e ev tells =>
    cases ev with
    | none =>
      obtain rfl := Option.some.inj hstep
      exact exact_deafen h
    | some ev =>
      simp only [Duplex.step] at hstep
      split at hstep
      · cases hstep
      · next hopen =>
          obtain rfl := Option.some.inj hstep
          simp only [Bool.or_eq_true, not_or, Bool.not_eq_true', Bool.not_eq_true,
            Bool.not_eq_false] at hopen
          exact exact_shut h hopen.1 hopen.2 (fun hfalse => by cases hfalse) fun _ => rfl

/-- Several events heard at once: the first ones on their way. -/
def Terminal.hearAll (x : Terminal α) (p rest : List (Event α)) : Terminal α :=
  { x with
    heard := x.heard ++ p
    onWay := if p.any Event.isClose then [] else rest
    closed := x.closed || p.any Event.isClose }

theorem Duplex.modify_modify (f g : Terminal α → Terminal α) :
    (d.modify e f).modify e g = d.modify e fun x => g (f x) := by
  refine funext ((End.forall_iff e).mpr ⟨?_, ?_⟩) <;> simp

theorem exists_play_hearAll (h : Exact d) {p rest : List (Event α)}
    (honWay : (d e).onWay = p ++ rest) :
    ∃ bs, play Duplex.step d bs = some (d.modify e (·.hearAll p rest)) := by
  induction p generalizing d with
  | nil =>
    obtain rfl : (d e).onWay = rest := honWay
    refine ⟨[], congrArg some (funext ((End.forall_iff e).mpr ⟨?_, ?_⟩))⟩
    · rw [Duplex.modify_self, Terminal.hearAll]
      simp
    · rw [Duplex.modify_other]
  | cons ev p ih =>
    rw [List.cons_append] at honWay
    have hopen : (d e).closed = false := by
      by_contra hclosed
      cases honWay.symm.trans (h.quiet e (.inl (Bool.not_eq_false _ ▸ hclosed)))
    obtain ⟨x, hx⟩ : ∃ x, (d e).hear = some x := by
      rw [Terminal.hear, honWay]
      dsimp only
      split <;> exact ⟨_, rfl⟩
    have hstep : d.step (.hear e) = some (d.modify e fun _ => x) := by
      rw [Duplex.step, hx]
      rfl
    have hexact := exact_hear h hx
    obtain ⟨ev', rest', honWay', hcases⟩ := hear_cases hx
    obtain ⟨rfl, rfl⟩ := List.cons.inj (honWay.symm.trans honWay')
    rcases hcases with ⟨hclose, rfl⟩ | ⟨hmessage, rfl⟩
    · have hflow := h.flow e hopen (by
        by_contra hdeaf
        cases honWay.symm.trans (h.quiet e (.inr (Bool.not_eq_false _ ▸ hdeaf))))
      rw [honWay] at hflow
      have hnil := eq_nil_of_closesLast (hflow ▸ h.postedLast e.other) hclose
      obtain ⟨rfl, rfl⟩ := List.append_eq_nil_iff.mp hnil
      refine ⟨[.hear e], ?_⟩
      rw [play, hstep]
      refine congrArg some (funext ((End.forall_iff e).mpr ⟨?_, ?_⟩))
      · rw [Duplex.modify_self, Duplex.modify_self, Terminal.finish, Terminal.hearAll]
        simp [hclose]
      · rw [Duplex.modify_other, Duplex.modify_other]
    · obtain ⟨bs, hplay⟩ := ih hexact (by rw [Duplex.modify_self])
      refine ⟨.hear e :: bs, ?_⟩
      rw [play, hstep]
      show play Duplex.step _ bs = _
      rw [hplay, Duplex.modify_modify]
      refine congrArg some (funext ((End.forall_iff e).mpr ⟨?_, ?_⟩))
      · rw [Duplex.modify_self, Duplex.modify_self, Terminal.hearAll, Terminal.hearAll]
        simp [hmessage]
      · rw [Duplex.modify_other, Duplex.modify_other]

end Lopata.WebSocket
