import FuzzReach.Proofs.Call.Reading
import Mathlib.Data.List.Induction

/-!
# Call sites are those of the replay

The calls of a body can be said without a replay: each event is read with the
variables that the bindings before it have left behind.  Resolution lists
exactly these calls, each of them once and in order of position, name and line,
and only then puts the file's aliases in.
-/

namespace FuzzReach.Call

/-! ## Events read one by one -/

def Tracker.withLocals (tracker : Tracker) (locals : Table String String) :
    Tracker :=
  { tracker with locals := locals }

/-- The variables after some events: a binding whose value has a type writes it
under its name, and nothing else changes a variable. -/
inductive Variables (start : Tracker) :
    List Event → Table String String → Prop where
  | nil : Variables start [] start.locals
  | bound {earlier locals name value type} (h : Variables start earlier locals)
      (htype : (start.withLocals locals).bindingType? value = some type)
        (hne : type ≠ "") :
      Variables start (earlier ++ [.bind name value]) (locals.insert name type)
  | untyped {earlier locals name value} (h : Variables start earlier locals)
      (htype : ∀ type,
        (start.withLocals locals).bindingType? value = some type → type = "") :
      Variables start (earlier ++ [.bind name value]) locals
  | call {earlier locals callee position line}
      (h : Variables start earlier locals) :
      Variables start (earlier ++ [.call callee position line]) locals
  | invoke {earlier locals name position line}
      (h : Variables start earlier locals) :
      Variables start (earlier ++ [.invoke name position line]) locals

inductive Finds (tracker : Tracker) : Event → Finding → Prop where
  | path {name position line} (hname : name ≠ "")
      (hclosure : ∀ type, tracker.locals.get? name = some type →
        TypeText.isClosure type = false) :
      Finds tracker (.call (.path name) position line) ⟨position, name, line⟩
  | field {receiver name position line}
      (hname : tracker.fieldName receiver name ≠ "") :
      Finds tracker (.call (.field receiver name) position line)
        ⟨position, tracker.fieldName receiver name, line⟩
  | generic {name position line} (hname : name ≠ "") :
      Finds tracker (.call (.generic name) position line) ⟨position, name, line⟩
  | invoke {name position line function}
      (hlookup : tracker.lookup name = some function)
      (hkind : function.isMacro = true) :
      Finds tracker (.invoke name position line) ⟨position, function.name, line⟩

/-- Some event makes the call, read with the variables after the events before
it. -/
def IsFound (start : Tracker) (events : List Event)
    (finding : Finding) : Prop :=
  ∃ earlier event later locals, events = earlier ++ event :: later ∧
    Variables start earlier locals ∧
      Finds (start.withLocals locals) event finding

def Finding.Lt (first second : Finding) : Prop :=
  first.position < second.position ∨
    first.position = second.position ∧
      (first.target < second.target ∨ first.target = second.target ∧
        first.line < second.line)

theorem nonempty?_eq_some_iff {name found : String} :
    nonempty? name = some found ↔ name = found ∧ found ≠ "" := by
  unfold nonempty?
  split
  · next hempty => simp [hempty, eq_comm]
  · next hne =>
      rw [Option.some.injEq]
      exact ⟨fun heq => ⟨heq, heq ▸ hne⟩, And.left⟩

theorem bind_nonempty?_eq_some_iff {type : Option String} {found : String} :
    type.bind nonempty? = some found ↔ type = some found ∧ found ≠ "" := by
  simp [Option.bind_eq_some_iff, nonempty?_eq_some_iff]

/-! ## Variables -/

namespace Tracker

private theorem learnAll_append_singleton (tracker : Tracker)
    (events : List Event) (event : Event) :
    tracker.learnAll (events ++ [event]) =
      (tracker.learnAll events).learnEvent event := by
  simp [learnAll]

private theorem learn_of_type {tracker : Tracker} {value : Binding}
    {type : String} (htype : tracker.bindingType? value = some type)
    (hne : type ≠ "") (name : String) :
    tracker.learn name value = tracker.bind name type := by
  rw [learn, bind_nonempty?_eq_some_iff.mpr ⟨htype, hne⟩]

private theorem learn_of_untyped {tracker : Tracker} {value : Binding}
    (htype : ∀ type, tracker.bindingType? value = some type → type = "")
    (name : String) :
    tracker.learn name value = tracker := by
  have hnone : (tracker.bindingType? value).bind nonempty? = none := by
    rw [Option.eq_none_iff_forall_ne_some]
    intro type hsome
    obtain ⟨hfound, hne⟩ := bind_nonempty?_eq_some_iff.mp hsome
    exact hne (htype type hfound)
  rw [learn, hnone]

private theorem typed_or_untyped (tracker : Tracker) (value : Binding) :
    (∃ type, tracker.bindingType? value = some type ∧ type ≠ "") ∨
      ∀ type, tracker.bindingType? value = some type → type = "" := by
  cases tracker.bindingType? value with
  | none => simp
  | some type => by_cases h : type = "" <;> simp [h]

private theorem exists_learnAll_eq (tracker : Tracker) (events : List Event) :
    ∃ locals, tracker.learnAll events = tracker.withLocals locals := by
  induction events generalizing tracker with
  | nil => exact ⟨tracker.locals, rfl⟩
  | cons event rest ih =>
      cases event with
      | bind name value =>
          obtain ⟨locals, hrest⟩ := ih (tracker.learn name value)
          refine ⟨locals, hrest.trans ?_⟩
          unfold learn
          split <;> rfl
      | call | invoke => exact ih tracker

private theorem withLocals_learnAll (tracker : Tracker) (events : List Event) :
    tracker.withLocals (tracker.learnAll events).locals =
      tracker.learnAll events := by
  obtain ⟨locals, hlocals⟩ := tracker.exists_learnAll_eq events
  rw [hlocals]
  rfl

end Tracker

private theorem Variables.eq_learnAll {start : Tracker} {events : List Event}
    {locals : Table String String} (h : Variables start events locals) :
    start.withLocals locals = start.learnAll events := by
  induction h with
  | nil => rfl
  | @bound earlier locals name value type h htype hne ih =>
      rw [Tracker.learnAll_append_singleton, ← ih]
      exact (Tracker.learn_of_type htype hne name).symm
  | @untyped earlier locals name value h htype ih =>
      rw [Tracker.learnAll_append_singleton, ← ih]
      exact (Tracker.learn_of_untyped htype name).symm
  | call h ih => rw [Tracker.learnAll_append_singleton, ih]; rfl
  | invoke h ih => rw [Tracker.learnAll_append_singleton, ih]; rfl

theorem variables_learnAll (start : Tracker) (events : List Event) :
    Variables start events (start.learnAll events).locals := by
  induction events using List.reverseRecOn with
  | nil => exact .nil
  | append_singleton earlier event ih =>
      rw [Tracker.learnAll_append_singleton]
      cases event with
      | bind name value =>
          rcases (start.learnAll earlier).typed_or_untyped value with
            ⟨type, htype, hne⟩ | htype
          · rw [Tracker.learnEvent, Tracker.learn_of_type htype hne]
            exact .bound ih (by rwa [Tracker.withLocals_learnAll]) hne
          · rw [Tracker.learnEvent, Tracker.learn_of_untyped htype]
            exact .untyped ih (by rwa [Tracker.withLocals_learnAll])
      | call => exact .call ih
      | invoke => exact .invoke ih

theorem variables_iff {start : Tracker} {events : List Event}
    {locals : Table String String} :
    Variables start events locals ↔
      locals = (start.learnAll events).locals := by
  refine ⟨fun h => congrArg Tracker.locals h.eq_learnAll, ?_⟩
  rintro rfl
  exact variables_learnAll start events

/-! ## Findings -/

private theorem replay_locals (tracker : Tracker) (events : List Event) :
    (replay tracker events).2 = (tracker.learnAll events).locals := by
  induction events generalizing tracker with
  | nil => rfl
  | cons event rest ih =>
      rw [replay_cons]
      exact ih (tracker.learnEvent event)

theorem Tracker.isClosure_eq_false_iff {tracker : Tracker} {name : String} :
    tracker.isClosure name = false ↔
      ∀ type, tracker.locals.get? name = some type →
        TypeText.isClosure type = false := by
  unfold isClosure
  cases tracker.locals.get? name <;> simp

private theorem finds_of_target? {tracker : Tracker} {callee : Callee}
    {target : String} (h : tracker.target? callee = some target)
    (position line : Nat) :
    Finds tracker (.call callee position line) ⟨position, target, line⟩ := by
  cases callee with
  | path name =>
      rw [Tracker.target?] at h
      split at h
      · cases h
      · next hclosure =>
          obtain ⟨rfl, hname⟩ := nonempty?_eq_some_iff.mp h
          exact .path hname
            (Tracker.isClosure_eq_false_iff.mp (by simpa using hclosure))
  | field receiver name =>
      obtain ⟨rfl, hname⟩ := nonempty?_eq_some_iff.mp h
      exact .field hname
  | generic name =>
      obtain ⟨rfl, hname⟩ := nonempty?_eq_some_iff.mp h
      exact .generic hname

private theorem finds_of_invoked? {tracker : Tracker} {name target : String}
    (h : tracker.invoked? name = some target) (position line : Nat) :
    Finds tracker (.invoke name position line) ⟨position, target, line⟩ := by
  obtain ⟨function, hlookup, hname⟩ := Option.bind_eq_some_iff.mp h
  split at hname
  · next hkind =>
      cases hname
      exact .invoke hlookup hkind
  · cases hname

theorem finding?_eq_some_iff {tracker : Tracker} {event : Event}
    {finding : Finding} :
    tracker.finding? event = some finding ↔ Finds tracker event finding := by
  constructor
  · intro h
    cases event with
    | call callee position line =>
        obtain ⟨target, htarget, rfl⟩ := Option.map_eq_some_iff.mp h
        exact finds_of_target? htarget position line
    | bind name value => cases h
    | invoke name position line =>
        obtain ⟨target, htarget, rfl⟩ := Option.map_eq_some_iff.mp h
        exact finds_of_invoked? htarget position line
  · intro h
    cases h with
    | path hname hclosure =>
        simp [Tracker.finding?, Tracker.target?,
          Tracker.isClosure_eq_false_iff.mpr hclosure, nonempty?, hname]
    | field hname => simp [Tracker.finding?, Tracker.target?, nonempty?, hname]
    | generic hname =>
        simp [Tracker.finding?, Tracker.target?, nonempty?, hname]
    | invoke hlookup hkind =>
        simp [Tracker.finding?, Tracker.invoked?, hlookup, hkind]

theorem mem_replay_iff {tracker : Tracker} {events : List Event}
    {finding : Finding} :
    finding ∈ (replay tracker events).1 ↔
      ∃ earlier event later, events = earlier ++ event :: later ∧
        Finds (tracker.learnAll earlier) event finding := by
  induction events generalizing tracker with
  | nil => simp [replay]
  | cons first rest ih =>
      rw [replay_cons, List.mem_append, Option.mem_toList,
        finding?_eq_some_iff, ih]
      constructor
      · rintro (hfinds | ⟨earlier, event, later, rfl, hfinds⟩)
        · exact ⟨[], first, rest, rfl, hfinds⟩
        · exact ⟨first :: earlier, event, later, rfl, hfinds⟩
      · rintro ⟨earlier, event, later, heq, hfinds⟩
        cases earlier with
        | nil =>
            obtain ⟨rfl, rfl⟩ := List.cons.inj heq
            exact .inl hfinds
        | cons skipped earlier =>
            obtain ⟨rfl, rfl⟩ := List.cons.inj heq
            exact .inr ⟨earlier, event, later, rfl, hfinds⟩

theorem mem_replay_iff_isFound {start : Tracker} {events : List Event}
    {finding : Finding} :
    finding ∈ (replay start events).1 ↔ IsFound start events finding := by
  rw [mem_replay_iff]
  constructor
  · rintro ⟨earlier, event, later, heq, hfinds⟩
    refine ⟨earlier, event, later, _, heq, variables_learnAll start earlier, ?_⟩
    rwa [Tracker.withLocals_learnAll]
  · rintro ⟨earlier, event, later, locals, heq, hlocals, hfinds⟩
    exact ⟨earlier, event, later, heq, hlocals.eq_learnAll ▸ hfinds⟩

/-! ## Order -/

namespace Finding

theorem Lt.trans {first second third : Finding} (h : first.Lt second)
    (h' : second.Lt third) :
    first.Lt third := by
  rcases h with h | ⟨hposition, h⟩
  · exact .inl (by rcases h' with h' | h' <;> omega)
  · rcases h' with h' | ⟨hposition', h'⟩
    · exact .inl (by omega)
    · refine .inr ⟨hposition.trans hposition', ?_⟩
      rcases h with h | ⟨htarget, h⟩
      · rcases h' with h' | ⟨htarget', -⟩
        · exact .inl (String.lt_trans h h')
        · exact .inl (htarget' ▸ h)
      · rcases h' with h' | ⟨htarget', h'⟩
        · exact .inl (htarget ▸ h')
        · exact .inr ⟨htarget.trans htarget', Nat.lt_trans h h'⟩

private theorem lt_or_eq_or_lt (first second : Finding) :
    first.Lt second ∨ first = second ∨ second.Lt first := by
  obtain ⟨position, target, line⟩ := first
  obtain ⟨position', target', line'⟩ := second
  have htarget : target < target' ∨ target = target' ∨ target' < target := by
    by_cases h : target < target'
    · exact .inl h
    · by_cases h' : target' < target
      · exact .inr (.inr h')
      · exact .inr (.inl
          (String.le_antisymm (String.not_lt.mp h') (String.not_lt.mp h)))
  simp only [Lt, Finding.mk.injEq]
  grind

theorem le_iff {first second : Finding} :
    le first second = true ↔ first.Lt second ∨ first = second := by
  obtain ⟨position, target, line⟩ := first
  obtain ⟨position', target', line'⟩ := second
  simp only [le, Lt, Bool.or_eq_true, Bool.and_eq_true, decide_eq_true_eq,
    Finding.mk.injEq]
  grind

end Finding

private theorem dropRepeats_cons_cons (first second : Finding)
    (rest : List Finding) :
    dropRepeats (first :: second :: rest) =
      if first = second then dropRepeats (second :: rest)
      else first :: dropRepeats (second :: rest) := rfl

theorem mem_dropRepeats_iff {found : List Finding} {finding : Finding} :
    finding ∈ dropRepeats found ↔ finding ∈ found := by
  induction found with
  | nil => rfl
  | cons first rest ih =>
      cases rest with
      | nil => rfl
      | cons second rest =>
          rw [dropRepeats_cons_cons]
          split
          · next heq => simp [ih, heq]
          · rw [List.mem_cons, ih, ← List.mem_cons]

private theorem pairwise_dropRepeats {found : List Finding}
    (h : found.Pairwise fun first second => first.Lt second ∨ first = second) :
    (dropRepeats found).Pairwise Finding.Lt := by
  induction found with
  | nil => exact .nil
  | cons first rest ih =>
      cases rest with
      | nil => exact List.pairwise_singleton _ _
      | cons second rest =>
          obtain ⟨hfirst, hrest⟩ := List.pairwise_cons.mp h
          rw [dropRepeats_cons_cons]
          split
          · exact ih hrest
          · next hne =>
              -- In a sorted list equal findings are neighbours, so the first
              -- one does not come back.
              have hsecond : first.Lt second :=
                (hfirst second List.mem_cons_self).resolve_right hne
              refine List.pairwise_cons.mpr
                ⟨fun finding hfinding => ?_, ih hrest⟩
              rcases List.mem_cons.mp (mem_dropRepeats_iff.mp hfinding) with
                rfl | hlater
              · exact hsecond
              · rcases (List.pairwise_cons.mp hrest).1 finding hlater with
                  hlater | rfl
                · exact hsecond.trans hlater
                · exact hsecond

theorem mem_arrange_iff {found : List Finding} {finding : Finding} :
    finding ∈ arrange found ↔ finding ∈ found := by
  rw [arrange, mem_dropRepeats_iff, List.mem_mergeSort]

private theorem pairwise_arrange (found : List Finding) :
    (arrange found).Pairwise Finding.Lt := by
  apply pairwise_dropRepeats
  have hsorted : (found.mergeSort Finding.le).Pairwise fun first second =>
      Finding.le first second = true := by
    apply List.pairwise_mergeSort
    · intro first second third h h'
      rw [Finding.le_iff] at h h' ⊢
      rcases h with h | rfl
      · rcases h' with h' | rfl
        · exact .inl (h.trans h')
        · exact .inl h
      · exact h'
    · intro first second
      rw [Bool.or_eq_true, Finding.le_iff, Finding.le_iff]
      rcases Finding.lt_or_eq_or_lt first second with h | rfl | h
      · exact .inl (.inl h)
      · exact .inl (.inr rfl)
      · exact .inr (.inl h)
  exact hsorted.imp Finding.le_iff.mp

/-! ## Resolution -/

/-- Resolution lists the calls of the events, each once, by position, name and
line.  A call whose name is an alias is listed under what the alias stands for,
every call site has its record, and the variables at the end are those after all
events. -/
theorem resolve_lists_calls (function : Function)
    (aliases : Table String String) (lookup : String → Option Function) :
    let start := Tracker.start lookup aliases function.name function.locals
    let resolution := resolve function aliases lookup
    ∃ calls : List Finding,
      calls.Pairwise Finding.Lt ∧
      (∀ finding, finding ∈ calls ↔ IsFound start function.events finding) ∧
      resolution.sites = calls.map (fun finding =>
        ⟨(aliases.get? finding.target).getD finding.target, finding.line⟩) ∧
      resolution.records = resolution.sites.map (fun site =>
        ⟨function.path ++ ":" ++ toString site.line ++ ",1", site.callee⟩) ∧
      ∀ locals, Variables start function.events locals ↔
        locals = resolution.locals := by
  intro start resolution
  refine ⟨arrange (replay start function.events).1, pairwise_arrange _,
    fun finding => ?_, rfl, rfl,
    fun locals => ?_⟩
  · rw [mem_arrange_iff, mem_replay_iff_isFound]
  · have hlocals :
        resolution.locals = (start.learnAll function.events).locals :=
      replay_locals start function.events
    rw [hlocals, variables_iff]

end FuzzReach.Call
