import Chip8.Proofs.CommandLine.Scan
import Chip8.Proofs.Numeral
import Mathlib.Data.List.Nodup

/-!
# Lines that run a program

A program is run with options in any order, on both sides of the path, each spelled in one of
several ways. What is read is the path, the values that are given and the standard values for the
rest. A count that is zero or too great is refused.

## Shape of the proof

Entries are taken in one after the other, and the path may be put aside while this is done
(`parse_runLine`). Entries for different slots, if their values are in range, are taken in as
assignments (`takeIn_of_nodup`), and assignments to different slots may change places
(`assign_comm`). So every order gives what the order of `Choices.settings` gives.
-/

namespace Chip8.CommandLine

/-! ## Settings and how they are written -/

/-- An option of a run and what it is set to. -/
inductive Setting where
  | stepsPerTick (count : Nat)
  | tickRate (count : Nat)
  | onUnknown (policy : UnknownPolicy)
  | layout (place : Layout)
  | debug (level : LogLevel)
deriving DecidableEq

namespace Setting

/-- The slot that is set. -/
def slot : Setting → Slot
  | stepsPerTick _ => .stepsPerTick
  | tickRate _ => .tickRate
  | onUnknown _ => .onUnknown
  | layout _ => .layout
  | debug _ => .debug

/-- The name after two dashes. -/
def name : Setting → String
  | stepsPerTick _ => "steps-per-tick"
  | tickRate _ => "tick-rate"
  | onUnknown _ => "on-unknown"
  | layout _ => "layout"
  | debug _ => "debug"

/-- The letter after a single dash. -/
def letter? : Setting → Option Char
  | stepsPerTick _ => some 's'
  | tickRate _ => some 't'
  | debug _ => some 'd'
  | onUnknown _ | layout _ => none

/-- The text of the value; a count is written in decimal with at least `digits` digits. -/
def text (digits : Nat) : Setting → String
  | stepsPerTick count | tickRate count => String.ofList (Numeral.padded 10 digits count)
  | onUnknown policy => policy.name
  | layout place => place.name
  | debug level => level.name

/-- Whether the value may be given; a count has to be positive and fit into 32 bits. -/
def inRange : Setting → Bool
  | stepsPerTick count | tickRate count => 1 ≤ count ∧ count ≤ 4294967295
  | onUnknown _ | layout _ | debug _ => true

variable (s : Setting)

theorem slot_ne_path : s.slot ≠ .path := by
  cases s <;> simp only [slot, ne_eq, reduceCtorEq, not_false_eq_true]

/-- The name of a setting is a flag of a run, and stands for its slot. -/
theorem long?_name : Scope.run.long? s.name = some (.value s.slot) := by
  cases s <;> rfl

/-- A name ends before an equals sign that follows it. -/
theorem equals_notMem_name : '=' ∉ s.name.toList := by
  cases s <;> simp only [name] <;> decide

theorem toList_name_ne_nil : s.name.toList ≠ [] := by
  cases s <;> simp only [name] <;> decide

/-- The letter of a setting, where there is one, stands for its slot as well. -/
theorem letter?_letter {s : Setting} {letter : Char} (h : s.letter? = some letter) :
    letter ≠ '-' ∧ Scope.run.letter? letter = some (.value s.slot) := by
  cases s with
  | stepsPerTick | tickRate | debug =>
    cases h
    exact ⟨by decide, rfl⟩
  | onUnknown | layout => cases h

/-- A value is no flag. -/
theorem ofArgument_text (digits : Nat) :
    Token.ofArgument (s.text digits) = .word (s.text digits) := by
  refine Token.ofArgument_word fun hdash => ?_
  cases s with
  | stepsPerTick count | tickRate count =>
    rw [text, String.toList_ofList] at hdash
    exact Numeral.head?_padded_ne (by decide) (by decide) (by decide) hdash
  | onUnknown value | layout value | debug value =>
    simp only [text] at hdash
    cases value <;> exact absurd hdash (by decide)

end Setting

/-- How a setting is spelled. -/
inductive Spelling (s : Setting) where
  /-- The name and the value are two arguments. -/
  | separate
  /-- The name and the value are one argument, joined by an equals sign. -/
  | joined
  /-- The letter and the value are two arguments. -/
  | short (letter : Char) (has : s.letter? = some letter)

/-- A setting as it stands on a line. -/
structure Entry where
  setting : Setting
  /-- The least number of digits, if the value is a count. -/
  digits : Nat
  spelling : Spelling setting

namespace Entry

/-- The text of the value. -/
def text (e : Entry) : String :=
  e.setting.text e.digits

/-- The arguments that an entry consists of. -/
def arguments (e : Entry) : List String :=
  match e.spelling with
  | .separate => ["--" ++ e.setting.name, e.text]
  | .joined => ["--" ++ e.setting.name ++ "=" ++ e.text]
  | .short letter _ => [String.ofList ['-', letter], e.text]

end Entry

/-- A line that runs a program, with entries on both sides of the path. -/
def runLine (before : List Entry) (path : String) (after : List Entry) : List String :=
  "run" :: (before.flatMap Entry.arguments ++ path :: after.flatMap Entry.arguments)

/-! ## Entries one after the other -/

/-- The values with the entries taken in. -/
def takeIn : List Entry → Values → Except Refusal Values
  | [], v => .ok v
  | e :: es, v => (v.accept e.setting.slot e.text).bind (takeIn es)

section TakeIn

variable {e : Entry} {es before after : List Entry} {v : Values} {path : String}
  {rest : List String} {met : Bool} {k : Values → Except Refusal Values}

/-- Entries are taken in from left to right. -/
theorem takeIn_append (first second : List Entry) (v : Values) :
    takeIn (first ++ second) v = (takeIn first v).bind (takeIn second) := by
  induction first generalizing v with
  | nil => rfl
  | cons e es ih =>
    rw [List.cons_append, takeIn, takeIn]
    cases v.accept e.setting.slot e.text with
    | error r => rfl
    | ok w => exact ih w

/-- The path may be put aside while entries are taken in. -/
theorem takeIn_withPath (es : List Entry) (v : Values) (path : String) :
    takeIn es (v.withPath path) = (takeIn es v).map (·.withPath path) := by
  induction es generalizing v with
  | nil => rfl
  | cons e es ih =>
    rw [takeIn, takeIn, Values.accept_withPath e.setting.slot_ne_path]
    cases v.accept e.setting.slot e.text with
    | error r => rfl
    | ok w => exact ih w

/-- However an entry is spelled, its value is read for the slot of its setting. -/
theorem reads_entry (hrest : Scan.Reads .run rest met k) (e : Entry) :
    Scan.Reads .run (e.arguments ++ rest) met fun v =>
      (v.accept e.setting.slot e.text).bind k := by
  obtain ⟨s, digits, spelling⟩ := e
  have hword := s.ofArgument_text digits
  cases spelling with
  | separate =>
    have htoken := Token.ofArgument_long s.toList_name_ne_nil s.equals_notMem_name
    exact hrest.flag_separate (Scan.opens_long htoken s.long?_name) s.slot_ne_path hword
  | joined =>
    have htoken := Token.ofArgument_joined s.equals_notMem_name (s.text digits)
    exact hrest.flag_attached (Scan.opens_long htoken s.long?_name) s.slot_ne_path
  | short letter has =>
    obtain ⟨hletter, hflag⟩ := Setting.letter?_letter has
    have htoken := Token.ofArgument_letter hletter
    exact hrest.flag_separate (Scan.opens_short htoken hflag) s.slot_ne_path hword

/-- A row of entries is read by taking them in. -/
theorem reads_entries (hrest : Scan.Reads .run rest met k) (es : List Entry) :
    Scan.Reads .run (es.flatMap Entry.arguments ++ rest) met fun v => (takeIn es v).bind k := by
  induction es with
  | nil => exact hrest
  | cons e es ih =>
    have hfirst := reads_entry ih e
    intro s hawait hmet
    rw [List.flatMap_cons, List.append_assoc, hfirst s hawait hmet]
    congr 1
    funext v
    rw [takeIn]
    cases v.accept e.setting.slot e.text <;> rfl

/-- A line that runs a program asks for what its entries amount to, wherever the path stands. -/
theorem parse_runLine (hpath : path ≠ "") (hdash : path.toList.head? ≠ some '-')
    (before after : List Entry) :
    parse (runLine before path after) = (takeIn (before ++ after) Values.none).map fun v =>
      { request := .run path v.runOptions, debug := v.debug } := by
  have hafter := reads_entries (Scan.reads_nil .run true) after
  have hline := reads_entries (hafter.path_word (Token.ofArgument_word hdash) hpath) before
  rw [List.append_nil] at hline
  have hscan := Scan.readCommand_eq hline
  show finish .run Scan.start _ = _
  rw [finish, hscan, takeIn_append]
  cases takeIn before Values.none with
  | error r => rfl
  | ok v =>
    show ((((takeIn after (v.withPath path)).bind .ok).bind _).bind _) = (takeIn after v).map _
    rw [takeIn_withPath]
    cases takeIn after v with
    | error r => rfl
    | ok w =>
      -- nothing is given in front of the command
      have hdebug : (w.debug <|> none) = w.debug := by cases w.debug <;> rfl
      show Except.ok (Invocation.mk (.run path w.runOptions) (w.debug <|> none)) = _
      rw [hdebug]
      rfl

end TakeIn

/-! ## Entries as assignments -/

namespace Values

/-- The values with one of them set. -/
def assign (v : Values) : Setting → Values
  | .stepsPerTick count => { v with stepsPerTick := some count }
  | .tickRate count => { v with tickRate := some count }
  | .onUnknown policy => { v with onUnknown := some policy }
  | .layout place => { v with layout := some place }
  | .debug level => { v with debug := some level }

/-- Nothing is given for the slot of a setting. -/
def Lacks (v : Values) : Setting → Prop
  | .stepsPerTick _ => v.stepsPerTick = .none
  | .tickRate _ => v.tickRate = .none
  | .onUnknown _ => v.onUnknown = .none
  | .layout _ => v.layout = .none
  | .debug _ => v.debug = .none

variable {v : Values} {s s' : Setting}

/-- An assignment leaves the other slots free. -/
theorem lacks_assign (hslot : s'.slot ≠ s.slot) (h : v.Lacks s') : (v.assign s).Lacks s' := by
  cases s <;> cases s' <;> first | exact h | exact absurd rfl hslot

/-- Assignments to different slots may change places. -/
theorem assign_comm (h : s.slot ≠ s'.slot) (v : Values) :
    (v.assign s).assign s' = (v.assign s').assign s := by
  cases s <;> cases s' <;> first | rfl | exact absurd rfl h

/-- A count is read whatever zeros stand in front of it, unless it is zero or too great. -/
theorem readCount_padded (digits count : Nat) :
    readCount (String.ofList (Numeral.padded 10 digits count)) =
      if 1 ≤ count ∧ count ≤ maxCount then .ok count else .error .invalidNumber := by
  have hplus : (Numeral.padded 10 digits count).head? ≠ some '+' :=
    Numeral.head?_padded_ne (by decide) (by decide) (by decide)
  unfold readCount
  rw [String.toList_ofList]
  split
  · next cs hcs => exact absurd (congrArg List.head? hcs) hplus
  · simp only [Numeral.readDecimal?_padded]

/-- A setting of a free slot is assigned if it is in range, and refused for its number if not. -/
theorem accept_text (h : v.Lacks s) (digits : Nat) :
    v.accept s.slot (s.text digits) =
      if s.inRange then .ok (v.assign s) else .error .invalidNumber := by
  cases s with
  | stepsPerTick count | tickRate count =>
    unfold Lacks at h
    simp only [Setting.slot, Setting.text, Setting.inRange, accept, h, fill, readCount_padded,
      decide_eq_true_eq]
    split <;> rfl
  | onUnknown value | layout value | debug value =>
    unfold Lacks at h
    simp only [Setting.slot, Setting.text, accept, h, fill]
    cases value <;> rfl

end Values

/-- Entries for different free slots are assigned if all of them are in range, and refused for a
number if not. -/
theorem takeIn_of_nodup {es : List Entry} {v : Values}
    (hslots : (es.map fun e => e.setting.slot).Nodup) (hlacks : ∀ e ∈ es, v.Lacks e.setting) :
    takeIn es v =
      if (es.map Entry.setting).all Setting.inRange then
        .ok ((es.map Entry.setting).foldl Values.assign v)
      else .error .invalidNumber := by
  induction es generalizing v with
  | nil => rfl
  | cons e es ih =>
    rw [List.map_cons, List.nodup_cons] at hslots
    obtain ⟨hfirst, hrest⟩ := List.forall_mem_cons.mp hlacks
    rw [takeIn, Entry.text, Values.accept_text hfirst, List.map_cons, List.all_cons,
      List.foldl_cons]
    cases e.setting.inRange with
    | false => rfl
    | true =>
      refine ih hslots.2 fun e' he' => Values.lacks_assign (fun heq => ?_) (hrest e' he')
      exact hslots.1 (heq ▸ List.mem_map_of_mem he')

/-! ## Choices -/

/-- What may be chosen for a run, each option given or not. -/
structure Choices where
  stepsPerTick : Option Nat
  tickRate : Option Nat
  onUnknown : Option UnknownPolicy
  layout : Option Layout
  debug : Option LogLevel

namespace Choices

/-- The options that are given. -/
def settings (c : Choices) : List Setting :=
  c.stepsPerTick.toList.map .stepsPerTick ++ c.tickRate.toList.map .tickRate ++
    c.onUnknown.toList.map .onUnknown ++ c.layout.toList.map .layout ++ c.debug.toList.map .debug

/-- The given counts are from 1 to the greatest number of 32 bits. -/
def InRange (c : Choices) : Prop :=
  (∀ count ∈ c.stepsPerTick, 1 ≤ count ∧ count ≤ 4294967295) ∧
    ∀ count ∈ c.tickRate, 1 ≤ count ∧ count ≤ 4294967295

variable {c : Choices} {given : List Setting}

/-- Every slot is chosen for at most once. -/
theorem nodup_slots (c : Choices) : (c.settings.map Setting.slot).Nodup := by
  obtain ⟨_ | steps, _ | rate, _ | policy, _ | place, _ | level⟩ := c <;>
    simp [settings, Setting.slot]

/-- The settings are in range exactly if the counts are. -/
theorem all_inRange_iff : c.settings.all Setting.inRange = true ↔ c.InRange := by
  obtain ⟨_ | steps, _ | rate, _ | policy, _ | place, _ | level⟩ := c <;>
    simp [settings, Setting.inRange, InRange]

/-- In whatever order the given options are assigned, each is what was chosen for it. -/
theorem foldl_assign_of_perm (h : given.Perm c.settings) :
    given.foldl Values.assign Values.none =
      { Values.none with
        stepsPerTick := c.stepsPerTick
        tickRate := c.tickRate
        onUnknown := c.onUnknown
        layout := c.layout
        debug := c.debug } := by
  have hcomm : ∀ s ∈ given, ∀ s' ∈ given, ∀ v : Values,
      (v.assign s).assign s' = (v.assign s').assign s := by
    intro s hs s' hs' v
    by_cases heq : s = s'
    · rw [heq]
    · have hslot : s.slot ≠ s'.slot := fun hslot =>
        heq (List.inj_on_of_nodup_map c.nodup_slots (h.mem_iff.mp hs) (h.mem_iff.mp hs') hslot)
      exact Values.assign_comm hslot v
  rw [h.foldl_eq' hcomm]
  obtain ⟨_ | steps, _ | rate, _ | policy, _ | place, _ | level⟩ := c <;> rfl

end Choices

/-- The options of a run, each given at most once, may stand in any order on both sides of the path
and be spelled in any way. If the counts are in range, the line asks for the path with the values
that are given and the standard values for the others; if not, it is refused. -/
theorem parse_run_of_perm {path : String} (hpath : path ≠ "")
    (hdash : path.toList.head? ≠ some '-') (c : Choices) (before after : List Entry)
    (hentries : ((before ++ after).map Entry.setting).Perm c.settings) :
    (c.InRange → parse (runLine before path after) = .ok
      { request := .run path
          { stepsPerTick := c.stepsPerTick.getD 1
            tickRate := c.tickRate.getD 60
            scale := .ofNat 10
            onUnknown := c.onUnknown.getD .skip
            layout := c.layout.getD .qwerty }
        debug := c.debug }) ∧
    (¬ c.InRange → parse (runLine before path after) = .error .invalidNumber) := by
  have hslots : ((before ++ after).map fun e => e.setting.slot).Nodup := by
    have hperm := hentries.map Setting.slot
    rw [List.map_map] at hperm
    exact hperm.nodup_iff.mpr c.nodup_slots
  -- parsing starts without any value, so no entry is refused as a repetition
  have hlacks : ∀ e ∈ before ++ after, Values.none.Lacks e.setting := by
    intro e _
    cases e.setting <;> rfl
  rw [parse_runLine hpath hdash, takeIn_of_nodup hslots hlacks, hentries.all_eq,
    Choices.foldl_assign_of_perm hentries]
  constructor
  · intro hrange
    rw [if_pos (Choices.all_inRange_iff.mpr hrange)]
    rfl
  · intro hrange
    rw [if_neg (mt Choices.all_inRange_iff.mp hrange)]
    rfl

/-- A path that could be taken for a command, with the greatest rate of all and zeros in front of
that, and a line that is refused because it asks for no steps. -/
theorem parse_run_of_perm_helpPath :
    let trace : Entry := ⟨.debug .trace, 1, .joined⟩
    let rate : Entry := ⟨.tickRate 4294967295, 12, .short 't' rfl⟩
    let halt : Entry := ⟨.onUnknown .halt, 1, .separate⟩
    let still : Entry := ⟨.stepsPerTick 0, 1, .separate⟩
    (runLine [trace, rate] "help" [halt] =
        ["run", "--debug=trace", "-t", "004294967295", "help", "--on-unknown", "halt"] ∧
      parse (runLine [trace, rate] "help" [halt]) = .ok
        { request := .run "help"
            { RunOptions.standard with tickRate := 4294967295, onUnknown := .halt }
          debug := some .trace }) ∧
    runLine [] "help" [still] = ["run", "help", "--steps-per-tick", "0"] ∧
    parse (runLine [] "help" [still]) = .error .invalidNumber := by
  intro trace rate halt still
  have hpath : "help" ≠ "" := by decide
  have hdash : "help".toList.head? ≠ some '-' := by decide
  let given : Choices := ⟨none, some 4294967295, some .halt, none, some .trace⟩
  let stopped : Choices := ⟨some 0, none, none, none, none⟩
  have hgiven : given.InRange := by simp [given, Choices.InRange]
  have hstopped : ¬ stopped.InRange := by simp [stopped, Choices.InRange]
  have hread := (parse_run_of_perm hpath hdash given [trace, rate] [halt] (by decide)).1 hgiven
  have hrefused := (parse_run_of_perm hpath hdash stopped [] [still] (by decide)).2 hstopped
  exact ⟨⟨by decide +kernel, hread⟩, by decide +kernel, hrefused⟩

end Chip8.CommandLine
