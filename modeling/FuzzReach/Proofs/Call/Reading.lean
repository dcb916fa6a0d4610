import FuzzReach.Call.Resolution

/-!
# What a call reads

The target of a call depends on the variables through one of them at most: the
called name, or the variable at the root of a chain of method calls.  Two
trackers give a call the same target exactly if they read that variable alike.
-/

namespace FuzzReach.Call

/-! ## Variables -/

mutual

def Callee.typeVariable? : Callee → Option String
  | .path _ => none
  | .field receiver _ => receiver.variable?
  | .generic _ => none

def Receiver.variable? : Receiver → Option String
  | .call callee => callee.typeVariable?
  | .path name => some name
  | .untypedCall | .self | .literal | .unknown => none

end

def Callee.variable? : Callee → Option String
  | .path name => some name
  | .field receiver _ => receiver.variable?
  | .generic _ => none

namespace Tracker

structure SameTypes (first second : Tracker) : Prop where
  returns : ∀ name, first.returnType? name = second.returnType? name
  owner : first.owner = second.owner

namespace SameTypes

variable {first second : Tracker}

mutual

theorem callType?_eq (h : first.SameTypes second) (callee : Callee)
    (hlocals : ∀ name, callee.typeVariable? = some name →
      first.locals.get? name = second.locals.get? name) :
    first.callType? callee = second.callType? callee := by
  match callee with
  | .path name => simp only [callType?, h.returns]
  | .generic name => simp only [callType?]
  | .field receiver name =>
      have hreceiver := receiverType?_eq h receiver hlocals
      simp only [callType?, memberType?, hreceiver, h.returns]

private theorem receiverType?_eq (h : first.SameTypes second)
    (receiver : Receiver) (hlocals : ∀ name, receiver.variable? = some name →
      first.locals.get? name = second.locals.get? name) :
    first.receiverType? receiver = second.receiverType? receiver := by
  match receiver with
  | .call callee =>
      have hcallee := callType?_eq h callee hlocals
      simp only [receiverType?, hcallee]
  | .path name =>
      have hname := hlocals name rfl
      simp only [receiverType?, h.returns, hname]
  | .self => simp only [receiverType?, h.owner]
  | .untypedCall | .literal | .unknown => simp only [receiverType?]

end

theorem target?_eq (h : first.SameTypes second) {callee : Callee}
    (hlocals : ∀ name, callee.variable? = some name →
      first.locals.get? name = second.locals.get? name) :
    first.target? callee = second.target? callee := by
  cases callee with
  | path name =>
      have hclosure : first.isClosure name = second.isClosure name := by
        rw [isClosure, hlocals name rfl, isClosure]
      simp only [target?, hclosure]
  | field receiver name =>
      have hreceiver := h.receiverType?_eq receiver hlocals
      simp only [target?, fieldName, hreceiver]
  | generic name => rfl

end SameTypes

structure SameSetting (first second : Tracker) : Prop where
  lookup : first.lookup = second.lookup
  owner : first.owner = second.owner

namespace SameSetting

theorem refl (tracker : Tracker) : tracker.SameSetting tracker := ⟨rfl, rfl⟩

theorem trans {first second third : Tracker} (h : first.SameSetting second)
    (h' : second.SameSetting third) : first.SameSetting third :=
  ⟨h.lookup.trans h'.lookup, h.owner.trans h'.owner⟩

theorem sameTypes {first second : Tracker} (h : first.SameSetting second) :
    first.SameTypes second where
  returns := fun name => by rw [returnType?, h.lookup, returnType?]
  owner := h.owner

end SameSetting

/-! ## Equal targets -/

/-- The type that qualifies the methods of a receiver, if one does. -/
def qualifier? (type : Option String) : Option String :=
  (type.bind nonempty?).filter fun type => type ≠ TypeText.void

theorem memberName_eq (type : Option String) (name : String) :
    memberName type name =
      ((qualifier? type).map fun type => type ++ "::" ++ name).getD name := by
  unfold memberName qualifier?
  cases type.bind nonempty? with
  | none => rfl
  | some type =>
      by_cases hvoid :
        type = TypeText.void <;> simp [TypeText.member, Option.filter, hvoid]

private theorem memberName_inj {first second : Option String} {name : String} :
    memberName first name = memberName second name ↔
      qualifier? first = qualifier? second := by
  -- a qualified name is longer than the bare one
  have hlonger : ∀ type : String, type ++ "::" ++ name ≠ name := by
    intro type heq
    have hlength := congrArg String.length heq
    simp at hlength
  rw [memberName_eq, memberName_eq]
  cases qualifier? first with
  | none =>
      cases qualifier? second with
      | none => simp
      | some type => simpa using (hlonger type).symm
  | some type =>
      cases qualifier? second with
      | none => simp [hlonger type]
      | some other => simp

private theorem nonempty?_inj {first second : String} :
    nonempty? first = nonempty? second ↔ first = second := by
  unfold nonempty?
  split <;> split <;> simp_all [eq_comm]

/-- Two trackers agree on what the target of a call depends on. -/
def ReadsAlike (first second : Tracker) : Callee → Prop
  | .path name => first.isClosure name = second.isClosure name
  | .field receiver _ =>
      qualifier? (first.receiverType? receiver) =
        qualifier? (second.receiverType? receiver)
  | .generic _ => True

theorem target?_eq_iff {first second : Tracker} {callee : Callee}
    (hnamed : callee ≠ .path "") :
    first.target? callee = second.target? callee ↔
      first.ReadsAlike second callee := by
  cases callee with
  | path name =>
      have hname : nonempty? name = some name := by
        refine if_neg fun hempty => hnamed ?_
        rw [hempty]
      simp only [target?, ReadsAlike, hname]
      cases first.isClosure name <;> cases second.isClosure name <;> simp
  | field receiver name =>
      simp only [target?, ReadsAlike, fieldName, nonempty?_inj, memberName_inj]
  | generic name => simp [target?, ReadsAlike]

/-! ## Bindings along a list of events -/

def learnEvent (tracker : Tracker) : Event → Tracker
  | .bind name value => tracker.learn name value
  | .call .. | .invoke .. => tracker

def learnAll (tracker : Tracker) (events : List Event) : Tracker :=
  events.foldl learnEvent tracker

def boundNames (events : List Event) : List String :=
  events.filterMap fun
    | .bind name _ => some name
    | .call .. | .invoke .. => none

theorem sameSetting_learn (tracker : Tracker) (name : String)
    (value : Binding) :
    (tracker.learn name value).SameSetting tracker := by
  unfold learn
  split
  · exact ⟨rfl, rfl⟩
  · exact .refl tracker

theorem get?_learn_of_ne {tracker : Tracker} {name other : String}
    {value : Binding} (h : other ≠ name) :
    (tracker.learn name value).locals.get? other =
      tracker.locals.get? other := by
  unfold learn
  split
  · simp [bind, h.symm]
  · rfl

theorem sameSetting_learnAll (tracker : Tracker) (events : List Event) :
    (tracker.learnAll events).SameSetting tracker := by
  induction events generalizing tracker with
  | nil => exact .refl tracker
  | cons event rest ih =>
      cases event with
      | bind name value =>
          exact (ih _).trans (sameSetting_learn tracker name value)
      | call | invoke => exact ih tracker

theorem get?_learnAll_of_notMem {tracker : Tracker} {events : List Event}
    {name : String} (h : name ∉ boundNames events) :
    (tracker.learnAll events).locals.get? name = tracker.locals.get? name := by
  induction events generalizing tracker with
  | nil => rfl
  | cons event rest ih =>
      cases event with
      | bind other value =>
          simp only [boundNames, List.filterMap_cons, List.mem_cons,
            not_or] at h
          exact (ih h.2).trans (get?_learn_of_ne h.1)
      | call | invoke => exact ih h

end Tracker

def Tracker.finding? (tracker : Tracker) : Event → Option Finding
  | .call callee position line =>
      (tracker.target? callee).map fun target => ⟨position, target, line⟩
  | .invoke name position line =>
      (tracker.invoked? name).map fun target => ⟨position, target, line⟩
  | .bind .. => none

theorem replay_cons (tracker : Tracker) (event : Event) (rest : List Event) :
    replay tracker (event :: rest) =
      ((tracker.finding? event).toList ++
        (replay (tracker.learnEvent event) rest).1,
        (replay (tracker.learnEvent event) rest).2) := by
  cases event with
  | bind name value => rfl
  | call callee position line =>
      simp only [replay, Tracker.finding?, Tracker.learnEvent]
      cases tracker.target? callee <;> rfl
  | invoke name position line =>
      simp only [replay, Tracker.finding?, Tracker.learnEvent]
      cases tracker.invoked? name <;> rfl

theorem replay_append (tracker : Tracker) (first second : List Event) :
    (replay tracker (first ++ second)).1 =
      (replay tracker first).1 ++
        (replay (tracker.learnAll first) second).1 := by
  induction first generalizing tracker with
  | nil => rfl
  | cons event rest ih =>
      rw [List.cons_append, replay_cons, replay_cons, ih, List.append_assoc]
      rfl

theorem replay_call (tracker : Tracker) (callee : Callee) (position line : Nat)
    (rest : List Event) :
    (replay tracker (.call callee position line :: rest)).1 =
      (tracker.target? callee).toList.map
        (fun target => ⟨position, target, line⟩) ++
        (replay tracker rest).1 := by
  simp only [replay]
  cases tracker.target? callee <;> rfl

end FuzzReach.Call
