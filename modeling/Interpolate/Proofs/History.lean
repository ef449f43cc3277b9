import Mathlib.Data.Set.Card
import Interpolate.Host.Memory
import Interpolate.Resolution

/-!
# Histories of lookups

Entries come and go, computed names come and go, the environment changes and is allowed or not. Whatever is done, and
in whatever order, three questions to the history decide what a name stands for, and they are asked one after another:
is its last entry still there? does the environment have it, and may it be asked? is its last computation still there?

* **`Change`**, **`Situation.run`** — what can be done to a lookup and its environment, and doing it;
* **`Leaves`** — what the last change of some kind leaves behind; **`Situation.run_eq_iff`** — a part of a situation on
  which each change has an effect of its own, or none, is what the history leaves there;
* **`Situation.run_filter`** — changes without an effect on a part can be left out;
* **`Situation.remove_run`** — what a removal says about the name, after any history;
* **`Situation.consult`** — asking for a name, as each pass of resolution does (`Situation.passes_eq_consult`);
* **`Situation.consult_run`** — the answer for every name after every history.
-/

namespace Interpolate

/-! ## Lists with keys -/

section Keys

variable {β : Type} (key : β → String)

/-- Without the elements of one key, those of the other keys are found as before. -/
theorem find_filter_key (l : List β) (erased name : String) :
    ((l.filter fun b => key b != erased).find? fun b => key b == name) =
      if erased = name then none else l.find? fun b => key b == name := by
  rw [List.find?_filter]
  split
  · next h =>
    subst h
    simp
  · next h =>
    congr 1
    funext b
    by_cases hb : key b = name
    · simp [hb, Ne.symm h]
    · simp [hb]

/-- An element in the place of those with its key is found under that key. -/
theorem find_cons_filter_key (b : β) (l : List β) (name : String) :
    ((b :: l.filter fun c => key c != key b).find? fun c => key c == name) =
      if key b = name then some b else l.find? fun c => key c == name := by
  rw [List.find?_cons, find_filter_key]
  by_cases h : key b = name
  · simp [h]
  · simp [h, beq_false_of_ne h]

end Keys

/-! ## The environment -/

namespace Environment

/-- The bytes that a name is set to. -/
def bytes? (environment : Environment) (name : String) : Option (List UInt8) :=
  (environment.settings.find? fun v => v.1 == name).map Prod.snd

theorem get?_eq_map_bytes? (environment : Environment) (name : String) :
    environment.get? name = (environment.bytes? name).map Text.decodeLossy := by
  rw [get?, bytes?, Option.map_map]
  rfl

end Environment

/-! ## Changes -/

/-- What can be done to a lookup and to the environment that it asks. -/
inductive Change (m : Type → Type) : Type 1 where
  /-- adds an entry, in the place of an earlier one -/
  | add {α : Type} [ToText α] (name : String) (value : α) (origin : Option String)
  /-- removes an entry -/
  | remove (name : String)
  /-- adds a computation, in the place of an earlier one -/
  | register (c : Computed m)
  /-- removes a computation -/
  | unregister (name : String)
  /-- removes every computation -/
  | withoutComputed
  /-- allows the environment, or not -/
  | withEnvironment (allowed : Bool)
  /-- sets a name in the environment -/
  | set (name : String) (bytes : List UInt8)
  /-- takes a name out of the environment -/
  | unset (name : String)

/-- A lookup and the environment that it asks. -/
structure Situation (m : Type → Type) where
  /-- the lookup -/
  lookup : Lookup m
  /-- the environment -/
  environment : Environment

variable {m : Type → Type}

namespace Change

/-- Whether the change is about entries. -/
def isStatic : Change m → Bool
  | add .. | remove _ => true
  | _ => false

/-- Whether the change is about computations. -/
def isDynamic : Change m → Bool
  | register _ | unregister _ | withoutComputed => true
  | _ => false

/-- The entry that the change leaves for a name, or that it leaves none, if it is about the entry of the name. -/
def onEntry (name : String) : Change m → Option (Option Entry)
  | add added value origin => if added = name then some (some ⟨added, ToText.text value, origin⟩) else none
  | remove removed => if removed = name then some none else none
  | _ => none

/-- The computation that the change leaves for a name, or that it leaves none, if it is about it. -/
def onComputed (name : String) : Change m → Option (Option (Computed m))
  | register c => if c.name = name then some (some c) else none
  | unregister removed => if removed = name then some none else none
  | withoutComputed => some none
  | _ => none

/-- The permission that the change gives, if it is about that. -/
def onPermission : Change m → Option Bool
  | withEnvironment allowed => some allowed
  | _ => none

/-- The bytes that the change leaves for a name in the environment, or that it leaves none, if it is about them. -/
def onSetting (name : String) : Change m → Option (Option (List UInt8))
  | set changed bytes => if changed = name then some (some bytes) else none
  | unset changed => if changed = name then some none else none
  | _ => none

end Change

/-! ## What a history leaves behind -/

/-- The last change of the history with an effect of some kind has this one. -/
def Leaves {β : Type} (effect : Change m → Option β) (history : List (Change m)) (b : β) : Prop :=
  ∃ before c after, history = before ++ c :: after ∧ effect c = some b ∧ ∀ d ∈ after, effect d = none

/-- There is a last change with an effect if there is any. -/
theorem exists_leaves_or {β : Type} (effect : Change m → Option β) (history : List (Change m)) :
    (∃ b, Leaves effect history b) ∨ ∀ c ∈ history, effect c = none := by
  induction history with
  | nil => exact .inr nofun
  | cons c history ih =>
    rcases ih with ⟨b, before, d, after, rfl, hd, hafter⟩ | hnone
    · exact .inl ⟨b, c :: before, d, after, rfl, hd, hafter⟩
    · cases hc : effect c with
      | some b => exact .inl ⟨b, [], c, history, rfl, hc, hnone⟩
      | none => exact .inr (List.forall_mem_cons.mpr ⟨hc, hnone⟩)

namespace Situation

/-- An empty lookup in an environment. -/
def initial (environment : Environment) : Situation m := ⟨.empty, environment⟩

/-- Makes a change. -/
def apply (s : Situation m) : Change m → Situation m
  | Change.add name value origin => { s with lookup := s.lookup.add name value origin }
  | Change.remove name => { s with lookup := (s.lookup.remove name).1 }
  | Change.register c => { s with lookup := s.lookup.register c }
  | Change.unregister name => { s with lookup := (s.lookup.unregister name).1 }
  | Change.withoutComputed => { s with lookup := s.lookup.withoutComputed }
  | Change.withEnvironment allowed => { s with lookup := s.lookup.withEnvironment allowed }
  | Change.set name bytes => { s with environment := s.environment.set name bytes }
  | Change.unset name => { s with environment := s.environment.unset name }

/-- Makes one change after another. -/
def run (s : Situation m) (history : List (Change m)) : Situation m :=
  history.foldl apply s

/-- What is done to the lookup with the computed names of a host comes after their registration in an empty one. -/
theorem run_host [Monad m] (host : Host m) (environment : Environment) (history : List (Change m)) :
    run ⟨host.lookup, environment⟩ history =
      (initial environment).run (.register host.now :: .register host.getcwd :: history) :=
  rfl

section Parts

variable {β : Type} (part : Situation m → β) {effect : Change m → Option β}

/-- Changes without an effect on a part leave it as it is. -/
theorem run_eq_of_forall (hstep : ∀ s c, part (apply s c) = (effect c).getD (part s)) {history : List (Change m)}
    (hnone : ∀ c ∈ history, effect c = none) (s : Situation m) : part (s.run history) = part s := by
  induction history generalizing s with
  | nil => rfl
  | cons c history ih =>
    obtain ⟨hc, hnone⟩ := List.forall_mem_cons.mp hnone
    calc part ((s.apply c).run history) = part (s.apply c) := ih hnone _
      _ = part s := by rw [hstep, hc, Option.getD_none]

theorem run_eq_of_leaves (hstep : ∀ s c, part (apply s c) = (effect c).getD (part s)) {history : List (Change m)} {b : β}
    (h : Leaves effect history b) (s : Situation m) : part (s.run history) = b := by
  obtain ⟨before, c, after, rfl, hc, hafter⟩ := h
  have hrun : s.run (before ++ c :: after) = ((s.run before).apply c).run after := by
    rw [run, List.foldl_append]
    rfl
  rw [hrun, run_eq_of_forall part hstep hafter, hstep, hc, Option.getD_some]

/-- **The last change decides.** If a change puts its effect in the place of a part, or leaves the part alone, then
after a history the part is the effect of the last change that has one, else what it was at first. -/
theorem run_eq_iff (hstep : ∀ s c, part (apply s c) = (effect c).getD (part s)) {s : Situation m}
    {history : List (Change m)} {b : β} :
    part (s.run history) = b ↔ Leaves effect history b ∨ (∀ c ∈ history, effect c = none) ∧ part s = b := by
  constructor
  · intro hpart
    rcases exists_leaves_or effect history with ⟨b', hleaves⟩ | hnone
    · obtain rfl : b' = b := (run_eq_of_leaves part hstep hleaves s).symm.trans hpart
      exact .inl hleaves
    · exact .inr ⟨hnone, (run_eq_of_forall part hstep hnone s).symm.trans hpart⟩
  · rintro (hleaves | ⟨hnone, hpart⟩)
    · exact run_eq_of_leaves part hstep hleaves s
    · exact (run_eq_of_forall part hstep hnone s).trans hpart

/-- **Other changes do not matter.** A part that depends on nothing else, and that only the chosen changes touch, is
after a history what it is after the chosen changes alone. -/
theorem run_filter {chosen : Change m → Bool}
    (hcongr : ∀ {s s'} c, part s = part s' → part (apply s c) = part (apply s' c))
    (hkeep : ∀ s c, chosen c = false → part (apply s c) = part s) (history : List (Change m)) {s s' : Situation m}
    (h : part s = part s') : part (s.run history) = part (s'.run (history.filter chosen)) := by
  induction history generalizing s s' with
  | nil => exact h
  | cons c history ih =>
    cases hc : chosen c with
    | true =>
      rw [List.filter_cons_of_pos hc]
      exact ih (hcongr c h)
    | false =>
      rw [List.filter_cons_of_neg (by simp [hc])]
      exact ih ((hkeep s c hc).trans h)

end Parts

/-! ## The parts of a situation -/

section Steps

variable (s : Situation m) (c : Change m) (name : String)

theorem entry?_apply :
    Lookup.entry? (s.apply c).lookup name = ((c.onEntry name).getD <| s.lookup.entry? name) := by
  cases c with
  | add added value origin =>
    calc Lookup.entry? (s.lookup.add added value origin) name
        = if added = name then some ⟨added, ToText.text value, origin⟩ else s.lookup.entry? name :=
          find_cons_filter_key Entry.name ⟨added, ToText.text value, origin⟩ s.lookup.entries name
      _ = _ := by rw [Change.onEntry]; split <;> rfl
  | remove removed =>
    calc Lookup.entry? (s.lookup.remove removed).1 name
        = if removed = name then none else s.lookup.entry? name :=
          find_filter_key Entry.name s.lookup.entries removed name
      _ = _ := by rw [Change.onEntry]; split <;> rfl
  | register | unregister | withoutComputed | withEnvironment | set | unset => rfl

theorem computed?_apply :
    (s.apply c).lookup.computed? name = (c.onComputed name).getD (s.lookup.computed? name) := by
  cases c with
  | register d =>
    calc (s.lookup.register d).computed? name
        = if d.name = name then some d else s.lookup.computed? name :=
          find_cons_filter_key Computed.name d s.lookup.computed name
      _ = _ := by rw [Change.onComputed]; split <;> rfl
  | unregister removed =>
    calc (s.lookup.unregister removed).1.computed? name
        = if removed = name then none else s.lookup.computed? name :=
          find_filter_key Computed.name s.lookup.computed removed name
      _ = _ := by rw [Change.onComputed]; split <;> rfl
  | add | remove | withoutComputed | withEnvironment | set | unset => rfl

theorem usesEnvironment_apply :
    (s.apply c).lookup.usesEnvironment = c.onPermission.getD s.lookup.usesEnvironment := by
  cases c <;> rfl

theorem bytes?_apply :
    (s.apply c).environment.bytes? name = (c.onSetting name).getD (s.environment.bytes? name) := by
  cases c with
  | set changed bytes =>
    calc (s.environment.set changed bytes).bytes? name
        = Option.map Prod.snd
            (if changed = name then some (changed, bytes) else s.environment.settings.find? fun v => v.1 == name) :=
          congrArg (Option.map Prod.snd)
            (find_cons_filter_key Prod.fst (changed, bytes) s.environment.settings name)
      _ = _ := by rw [Change.onSetting]; split <;> rfl
  | unset changed =>
    calc (s.environment.unset changed).bytes? name
        = Option.map Prod.snd (if changed = name then none else s.environment.settings.find? fun v => v.1 == name) :=
          congrArg (Option.map Prod.snd) (find_filter_key Prod.fst s.environment.settings changed name)
      _ = _ := by rw [Change.onSetting]; split <;> rfl
  | add | remove | register | unregister | withoutComputed | withEnvironment => rfl

end Steps

section Runs

variable {environment : Environment} {history : List (Change m)} {name : String}

/-- An entry is there if the last change about it added it. -/
theorem entry?_run_iff {e : Entry} :
    Lookup.entry? ((initial environment).run history).lookup name = some e ↔
      Leaves (Change.onEntry name) history (some e) := by
  rw [run_eq_iff (fun s => s.lookup.entry? name) fun s c => entry?_apply s c name]
  exact or_iff_left fun h => nomatch h.2

/-- A computation is there if the last change about it added it. -/
theorem computed?_run_iff {c : Computed m} :
    ((initial environment).run history).lookup.computed? name = some c ↔
      Leaves (Change.onComputed name) history (some c) := by
  rw [run_eq_iff (fun s => s.lookup.computed? name) fun s c => computed?_apply s c name]
  exact or_iff_left fun h => nomatch h.2

/-- The environment may be asked unless the last change about that forbids it. -/
theorem usesEnvironment_run_iff :
    ((initial environment).run history).lookup.usesEnvironment = true ↔ ¬ Leaves Change.onPermission history false := by
  rw [← Bool.not_eq_false, run_eq_iff (fun s => s.lookup.usesEnvironment) usesEnvironment_apply]
  exact not_congr (or_iff_left fun h => nomatch h.2)

/-- The environment has a text for a name: that of the bytes which the last change about the name sets, or of those
which were there before if there is no such change. -/
def HasText (environment : Environment) (history : List (Change m)) (name value : String) : Prop :=
  ∃ bytes, (Leaves (Change.onSetting name) history (some bytes) ∨
    (∀ c ∈ history, c.onSetting name = none) ∧ environment.bytes? name = some bytes) ∧ Text.decodeLossy bytes = value

theorem get?_run_iff {value : String} :
    ((initial environment).run history).environment.get? name = some value ↔
      HasText environment history name value := by
  rw [Environment.get?_eq_map_bytes?, Option.map_eq_some_iff, HasText]
  simp only [run_eq_iff (fun s => s.environment.bytes? name) fun s c => bytes?_apply s c name]
  rfl

end Runs

/-! ## The entries of a lookup -/

section Entries

/-- No change gives a name a second entry. -/
theorem nodup_apply {s : Situation m} (h : (s.lookup.entries.map Entry.name).Nodup) (c : Change m) :
    ((s.apply c).lookup.entries.map Entry.name).Nodup := by
  have hremove : ∀ removed, ((s.lookup.remove removed).1.entries.map Entry.name).Nodup := fun removed =>
    h.sublist (List.filter_sublist.map Entry.name)
  cases c with
  | add added value origin =>
    refine List.nodup_cons.mpr ⟨?_, hremove added⟩
    simp [Lookup.remove]
  | remove removed => exact hremove removed
  | register | unregister | withoutComputed | withEnvironment | set | unset => exact h

theorem nodup_run {s : Situation m} (h : (s.lookup.entries.map Entry.name).Nodup) (history : List (Change m)) :
    ((s.run history).lookup.entries.map Entry.name).Nodup := by
  induction history generalizing s with
  | nil => exact h
  | cons c history ih => exact ih (nodup_apply h c)

/-- The names of entries are those whose entry can be found. -/
theorem mem_names_iff {l : Lookup m} {name : String} :
    name ∈ l.entries.map Entry.name ↔ ∃ e, l.entry? name = some e := by
  rw [← Option.isSome_iff_exists, Lookup.entry?, List.find?_isSome]
  simp

/-- If no name has two entries, then a removal leaves one entry less when it says that there was one, and else as many as
before. -/
theorem length_remove {l : Lookup m} (h : (l.entries.map Entry.name).Nodup) (name : String) :
    (l.remove name).1.entries.length + (l.remove name).2.toNat = l.entries.length := by
  have hcount : l.entries.countP (fun e => e.name == name) = (l.remove name).2.toNat := by
    calc l.entries.countP (fun e => e.name == name)
        = (l.entries.map Entry.name).count name := by rw [List.count, List.countP_map]; rfl
      _ = if name ∈ l.entries.map Entry.name then 1 else 0 := h.count
      _ = (l.remove name).2.toNat := by
        simp only [mem_names_iff, ← Lookup.remove_snd_iff]
        cases (l.remove name).2 <;> rfl
  have hkept : l.entries.countP (fun e => decide ¬(e.name == name) = true) = (l.remove name).1.entries.length := by
    rw [List.countP_eq_length_filter, Lookup.remove]
    simp [bne, beq_eq_decide]
  rw [l.entries.length_eq_countP_add_countP fun e => e.name == name, hcount, hkept, Nat.add_comm]

/-- **A removal says what it takes away.** After a history, the removal of an entry says that there was one just when the
last change about it added it; then there is one entry less, and else there are as many as before. The removal of a
computation says that there was one just when the last change about it registered it. -/
theorem remove_run (environment : Environment) (history : List (Change m)) (name : String) :
    let l := ((initial environment).run history).lookup
    ((l.remove name).2 = true ↔ ∃ e, Leaves (Change.onEntry name) history (some e)) ∧
      (l.remove name).1.entries.length + (l.remove name).2.toNat = l.entries.length ∧
        ((l.unregister name).2 = true ↔ ∃ c, Leaves (Change.onComputed name) history (some c)) := by
  intro l
  have hnodup : (l.entries.map Entry.name).Nodup := nodup_run (s := initial environment) List.nodup_nil history
  refine ⟨?_, length_remove hnodup name, ?_⟩
  · exact Lookup.remove_snd_iff.trans (exists_congr fun e => entry?_run_iff)
  · exact Lookup.unregister_snd_iff.trans (exists_congr fun c => computed?_run_iff)

variable {s s' : Situation m}

theorem entries_apply_congr (c : Change m) (h : s.lookup.entries = s'.lookup.entries) :
    (s.apply c).lookup.entries = (s'.apply c).lookup.entries := by
  cases c with
  | add => simp [apply, Lookup.add, Lookup.insert, Lookup.remove, h]
  | remove => simp [apply, Lookup.remove, h]
  | register | unregister | withoutComputed | withEnvironment | set | unset => exact h

theorem entries_apply_of_not_static (s : Situation m) (c : Change m) (h : c.isStatic = false) :
    (s.apply c).lookup.entries = s.lookup.entries := by
  cases c with
  | add | remove => cases h
  | register | unregister | withoutComputed | withEnvironment | set | unset => rfl

theorem computed_apply_congr (c : Change m) (h : s.lookup.computed = s'.lookup.computed) :
    (s.apply c).lookup.computed = (s'.apply c).lookup.computed := by
  cases c with
  | register => simp [apply, Lookup.register, Lookup.unregister, h]
  | unregister => simp [apply, Lookup.unregister, h]
  | withoutComputed => rfl
  | add | remove | withEnvironment | set | unset => exact h

theorem computed_apply_of_not_dynamic (s : Situation m) (c : Change m) (h : c.isDynamic = false) :
    (s.apply c).lookup.computed = s.lookup.computed := by
  cases c with
  | register | unregister | withoutComputed => cases h
  | add | remove | withEnvironment | set | unset => rfl

end Entries

/-! ## Asking after a history -/

section Asking

variable [Monad m]

/-- What the lookup says about a name now. -/
def ask (s : Situation m) (name : String) : m Answer :=
  s.lookup.ask (fun name => pure (s.environment.get? name)) name

/-- Asks for a name, and notes the answer in an outcome: the text, if there is one, and the outcome with the note. -/
def consult {α : Type} (s : Situation m) (name : String) (o : Outcome α) : m (Option String × Outcome α) := do
  let answer ← s.ask name
  return (answer.value?, o.record name answer)

variable [LawfulMonad m] {s : Situation m} {name : String}

/-- Each pass of resolution consults the lookup, and goes on from what it gets. -/
theorem passes_eq_consult {text : List Char} {p : Placeholder} (h : Placeholder.last? text = some p)
    (o : Outcome String) :
    Resolution.passes s.ask text o = (do
      match ← s.consult (String.ofList p.name) o with
      | (none, noted) => return { noted with value := some (String.ofList text) }
      | (some value, noted) =>
        let next := p.fill value.toList
        if noted.limit < noted.passes + 1 then
          let spent := ({ noted with passes := noted.passes + 1 } : Outcome String).addStep "too many passes"
          return { spent.fail (.tooManyPasses noted.limit) with value := some (String.ofList next) }
        else
          let counted := ({ noted with passes := noted.passes + 1 } : Outcome String).addStep
            ("pass: " ++ toString (noted.passes + 1) ++ " -> " ++ String.ofList next)
          Resolution.passes s.ask next counted) := by
  rw [Resolution.passes.eq_def, h]
  simp only [consult, bind_assoc, pure_bind]
  congr 1
  funext answer
  cases answer <;> rfl

omit [LawfulMonad m] in
theorem ask_of_entry {e : Entry} (h : s.lookup.entry? name = some e) :
    s.ask name = pure (.found e.value e.origin) := by
  rw [ask, Lookup.ask, h]

theorem ask_of_environment {value : String} (hentry : s.lookup.entry? name = none)
    (hallowed : s.lookup.usesEnvironment = true) (h : s.environment.get? name = some value) :
    s.ask name = pure (.found value (some environmentOrigin)) := by
  rw [ask, Lookup.ask, hentry]
  simp [Lookup.environment?, hallowed, h]

/-- Without an entry and a text in the environment, the computation decides. -/
theorem ask_of_neither (hentry : s.lookup.entry? name = none)
    (henvironment : ∀ value, s.lookup.usesEnvironment = true → s.environment.get? name ≠ some value) :
    s.ask name =
      match s.lookup.computed? name with
      | some c => do return (← c.action).answer c.origin
      | none => pure .unknown := by
  have hnone : (if s.lookup.usesEnvironment then pure (s.environment.get? name) else pure none : m (Option String)) =
      pure none := by
    split
    · next hallowed => rw [Option.eq_none_iff_forall_ne_some.mpr fun value => henvironment value hallowed]
    · rfl
  rw [ask, Lookup.ask, hentry]
  cases s.lookup.computed? name with
  | some c => simp only [Lookup.environment?, hnone, pure_bind]
  | none => simp only [Lookup.environment?, hnone, pure_bind]

/-- **What a name stands for after any history.** A lookup that is empty at first, and an environment, go through
changes of all kinds in some order. (For a lookup with the computed names of a host, their registration comes first.)
Then a name that is asked for has

* the text of its entry, if the last change about its entry is an addition;
* else the text that the environment has for it now, if the environment may be asked;
* else what the computation replies, if the last change about its computation is a registration: the text, or a fault
  with the description or the last message. Nothing is computed in the other cases;
* else no text, and the fault says that it is undefined.

No two entries have one name; the names with an entry are those whose last change is an addition, and there are as many
entries as such names. The entries are those that the changes about entries alone make, and the computations those that
the changes about computations alone make. -/
theorem consult_run {α : Type} (environment : Environment) (history : List (Change m)) (name : String) (o : Outcome α) :
    let s := (initial environment).run history
    let hasEntry (name : String) := ∃ e, Leaves (Change.onEntry name) history (some e)
    let hasEnvironment := ¬ Leaves Change.onPermission history false ∧ ∃ value, HasText environment history name value
    (∀ e, Leaves (Change.onEntry name) history (some e) →
      s.consult name o = pure (some e.value, o.addStep (foundStep name e.value e.origin))) ∧
    (¬ hasEntry name → ¬ Leaves Change.onPermission history false →
      ∀ value, HasText environment history name value →
        s.consult name o = pure (some value, o.addStep (foundStep name value (some environmentOrigin)))) ∧
    (¬ hasEntry name → ¬ hasEnvironment → ∀ c, Leaves (Change.onComputed name) history (some c) →
      s.consult name o = do
        match ← c.action with
        | .value text => return (some text, o.addStep (foundStep name text (some c.origin)))
        | .failure description => return (none, o.fail (.failed name description))
        | .broken message => return (none, o.fail (.failed name (message.getD "panic")))) ∧
    (¬ hasEntry name → ¬ hasEnvironment → (¬ ∃ c, Leaves (Change.onComputed name) history (some c)) →
      s.consult name o = pure (none, o.fail (.undefined name))) ∧
    (s.lookup.entries.map Entry.name).Nodup ∧
    (∀ name, name ∈ s.lookup.entries.map Entry.name ↔ hasEntry name) ∧
    s.lookup.entries.length = {name | hasEntry name}.ncard ∧
    s.lookup.entries = ((initial environment).run (history.filter Change.isStatic)).lookup.entries ∧
    s.lookup.computed = ((initial environment).run (history.filter Change.isDynamic)).lookup.computed := by
  intro s hasEntry hasEnvironment
  have hentry : ∀ {name}, ¬ hasEntry name → s.lookup.entry? name = none := fun h =>
    Option.eq_none_iff_forall_ne_some.mpr fun e he => h ⟨e, entry?_run_iff.mp he⟩
  have henvironment : ¬ hasEnvironment →
      ∀ value, s.lookup.usesEnvironment = true → s.environment.get? name ≠ some value :=
    fun h value hallowed hvalue => h ⟨usesEnvironment_run_iff.mp hallowed, value, get?_run_iff.mp hvalue⟩
  have hinitial : ((initial environment : Situation m).lookup.entries.map Entry.name).Nodup := List.nodup_nil
  have hnodup : (s.lookup.entries.map Entry.name).Nodup := nodup_run hinitial history
  have hnames : ∀ name, name ∈ s.lookup.entries.map Entry.name ↔ hasEntry name := fun name =>
    mem_names_iff.trans (exists_congr fun e => entry?_run_iff)
  refine ⟨?entry, ?environment, ?computed, ?undefined, hnodup, hnames, ?count, ?static, ?dynamic⟩
  case entry =>
    intro e he
    rw [consult, ask_of_entry (entry?_run_iff.mpr he), pure_bind]
    rfl
  case environment =>
    intro hnone hallowed value hvalue
    rw [consult, ask_of_environment (hentry hnone) (usesEnvironment_run_iff.mpr hallowed) (get?_run_iff.mpr hvalue),
      pure_bind]
    rfl
  case computed =>
    intro hnone hforbidden c hc
    rw [consult, ask_of_neither (hentry hnone) (henvironment hforbidden), computed?_run_iff.mpr hc]
    simp only [bind_assoc, pure_bind]
    congr 1
    funext reply
    cases reply <;> rfl
  case undefined =>
    intro hnone hforbidden hc
    have hcomputed : s.lookup.computed? name = none :=
      Option.eq_none_iff_forall_ne_some.mpr fun c h => hc ⟨c, computed?_run_iff.mp h⟩
    rw [consult, ask_of_neither (hentry hnone) (henvironment hforbidden), hcomputed]
    simp only [pure_bind]
    rfl
  case count =>
    have hset : {name | hasEntry name} = ↑(s.lookup.entries.map Entry.name).toFinset := by
      rw [List.coe_toFinset]
      exact Set.ext fun name => (hnames name).symm
    rw [hset, Set.ncard_coe_finset, List.toFinset_card_of_nodup hnodup, List.length_map]
  case static =>
    exact run_filter (fun s => s.lookup.entries) entries_apply_congr entries_apply_of_not_static history rfl
  case dynamic =>
    exact run_filter (fun s => s.lookup.computed) computed_apply_congr computed_apply_of_not_dynamic history rfl

/-- A computation that counts its runs. -/
def counting (name : String) : Computed (StateM Nat) where
  name
  origin := "counter"
  action := do
    modify (· + 1)
    return .value (toString (← get))

/-- A name is set, computed and added, but then removed again, and the environment forbidden. -/
def uncovered : List (Change (StateM Nat)) :=
  [.set "pet" [99, 97, 116], .register (counting "pet"), .add "pet" "dog" none, .remove "pet", .withEnvironment false]

/-- The computation is what is left, and runs once. -/
theorem consult_run_uncovered :
    (((initial ⟨[]⟩).run uncovered).consult "pet" (Outcome.fresh 50 : Outcome String)).run 0 =
      ((some "1", (Outcome.fresh 50).addStep "pet -> 1 (counter)"), 1) := by
  obtain ⟨-, -, hcomputed, -⟩ := consult_run ⟨[]⟩ uncovered "pet" (Outcome.fresh 50 : Outcome String)
  have hentry : ¬ ∃ e, Leaves (Change.onEntry "pet") uncovered (some e) := by
    rintro ⟨e, he⟩
    have hfound : Lookup.entry? ((initial ⟨[]⟩).run uncovered).lookup "pet" = some e := entry?_run_iff.mpr he
    cases hfound
  have hforbidden : Leaves Change.onPermission uncovered false := ⟨uncovered.take 4, .withEnvironment false, [], rfl, rfl, nofun⟩
  have hcounting : Leaves (Change.onComputed "pet") uncovered (some (counting "pet")) :=
    ⟨uncovered.take 1, .register (counting "pet"), uncovered.drop 2, rfl, rfl, by simp [uncovered, Change.onComputed]⟩
  rw [hcomputed hentry (fun h => h.1 hforbidden) (counting "pet") hcounting]
  rfl

end Asking

end Situation

end Interpolate
