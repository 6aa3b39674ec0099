import Chip8.CommandLine.Parse

/-!
# Taking arguments in

How the arguments of a command add to the values read so far: a flag with its value, be it attached
or an argument of its own, and the path.

## Shape of the laws

A scan may hold back the slot it has met last, so two scans that go on alike can look different.
`accepted` is what a scan amounts to with that slot taken in, and `Reads` says what arguments make
of that. The laws of `Reads` put one flag or the path in front of arguments whose meaning is known.
-/

namespace Chip8.CommandLine

/-! ## Forms of arguments -/

namespace Token

variable {argument text : String} {letter : Char} {name value : List Char}

/-- Without an equals sign there is nothing to split. -/
theorem splitEquals_of_notMem (h : '=' ∉ name) : splitEquals name = (name, none) := by
  induction name with
  | nil => rfl
  | cons c cs ih =>
    obtain ⟨hc, hcs⟩ := not_or.mp (mt List.mem_cons.mpr h)
    rw [splitEquals, ih hcs]
    exact fun heq => hc heq.symm

/-- The first equals sign ends the name; more of them belong to the value. -/
theorem splitEquals_append (h : '=' ∉ name) (value : List Char) :
    splitEquals (name ++ '=' :: value) = (name, some value) := by
  induction name with
  | nil => rfl
  | cons c cs ih =>
    obtain ⟨hc, hcs⟩ := not_or.mp (mt List.mem_cons.mpr h)
    rw [List.cons_append, splitEquals, ih hcs]
    exact fun heq => hc heq.symm

/-- What follows two dashes is a name, up to an equals sign if there is one. -/
theorem ofArgument_of_dashes (h : argument.toList = '-' :: '-' :: name) (hname : name ≠ []) :
    ofArgument argument =
      long (String.ofList (splitEquals name).1) ((splitEquals name).2.map String.ofList) := by
  obtain ⟨c, cs, rfl⟩ := List.exists_cons_of_ne_nil hname
  rw [ofArgument, h]
  rfl

/-- A text that does not begin with a dash is a word. -/
theorem ofArgument_word (h : text.toList.head? ≠ some '-') : ofArgument text = word text := by
  unfold ofArgument
  split
  case h_4 => rfl
  all_goals next heq => exact absurd (congrArg List.head? heq) h

/-- A name by itself, its value still to come. -/
theorem ofArgument_long {name : String} (hname : name.toList ≠ []) (h : '=' ∉ name.toList) :
    ofArgument ("--" ++ name) = long name none := by
  have hlist : ("--" ++ name).toList = '-' :: '-' :: name.toList := String.toList_append
  rw [ofArgument_of_dashes hlist hname, splitEquals_of_notMem h, String.ofList_toList]
  rfl

/-- A name with its value behind an equals sign. -/
theorem ofArgument_joined {name : String} (h : '=' ∉ name.toList) (value : String) :
    ofArgument ("--" ++ name ++ "=" ++ value) = long name (some value) := by
  have hlist : ("--" ++ name ++ "=" ++ value).toList =
      '-' :: '-' :: (name.toList ++ '=' :: value.toList) := by
    simp [String.toList_append]
  rw [ofArgument_of_dashes hlist (by simp), splitEquals_append h, String.ofList_toList,
    Option.map_some, String.ofList_toList]

/-- A letter behind a single dash, its value still to come. -/
theorem ofArgument_letter (h : letter ≠ '-') :
    ofArgument (String.ofList ['-', letter]) = short letter none := by
  rw [ofArgument, String.toList_ofList]
  split
  · next heq => exact absurd (List.cons.inj (List.cons.inj heq).2).1 h
  · next heq => exact absurd (List.cons.inj (List.cons.inj heq).2).1 h
  · next heq =>
    obtain ⟨rfl, rfl⟩ := List.cons.inj (List.cons.inj heq).2
    rfl
  · next hshort => exact absurd rfl (hshort letter [])

end Token

/-! ## Values -/

/-- What is accepted in the end was accepted before it was mapped. -/
theorem exists_of_map_eq_ok {α β : Type} {f : α → β} {x : Except Refusal α} {b : β}
    (h : x.map f = .ok b) : ∃ a, x = .ok a ∧ f a = b := by
  cases x with
  | error r => cases h
  | ok a => exact ⟨a, rfl, Except.ok.inj h⟩

namespace Values

variable {v w : Values} {slot : Slot} {text path : String}

/-- The values with a path. -/
def withPath (v : Values) (path : String) : Values :=
  { v with path := some path }

/-- A first path is taken as it is. -/
theorem accept_path (h : v.path = .none) (hpath : path ≠ "") :
    v.accept .path path = .ok (v.withPath path) := by
  rw [accept, h, readPath, if_neg hpath]
  rfl

/-- What becomes of another slot does not depend on the path. -/
theorem accept_withPath (h : slot ≠ .path) (path : String) :
    (v.withPath path).accept slot text = (v.accept slot text).map (·.withPath path) := by
  cases slot with
  | path => exact absurd rfl h
  | debug | stepsPerTick | tickRate | scale | onUnknown | layout | outputFile =>
    unfold accept withPath
    dsimp only
    cases fill _ _ <;> rfl

/-- A slot that has been filled is not empty. -/
theorem isSome_of_fill {α : Type} {old new : Option α} {read : Except Refusal α}
    (h : fill old read = .ok new) : new.isSome = true := by
  cases old with
  | some a => cases h
  | none =>
    obtain ⟨a, -, rfl⟩ := exists_of_map_eq_ok h
    rfl

/-- Only its own slot gives a path. -/
theorem isSome_path_of_accept (h : v.accept slot text = .ok w) :
    w.path.isSome = (v.path.isSome || slot == .path) := by
  cases slot with
  | path =>
    obtain ⟨new, hfill, rfl⟩ := exists_of_map_eq_ok h
    exact (isSome_of_fill hfill).trans (Bool.or_true _).symm
  | debug | stepsPerTick | tickRate | scale | onUnknown | layout | outputFile =>
    obtain ⟨new, -, rfl⟩ := exists_of_map_eq_ok h
    exact (Bool.or_false _).symm

end Values

/-! ## Scans -/

namespace Scan

variable {s : Scan} {v : Values} {scope : Scope} {slot : Slot} {argument text path : String}
  {value : Option String} {rest : List String} {met : Bool}
  {k : Values → Except Refusal Values}

/-- The values of a scan with the pending slot taken in. -/
def accepted (s : Scan) : Except Refusal Values :=
  s.settle.map Scan.values

/-- A pending slot that has its value takes it in. -/
theorem accepted_pending (v : Values) (slot : Slot) (text : String) :
    accepted ⟨v, some (slot, some text)⟩ = v.accept slot text := by
  unfold accepted settle
  dsimp only
  cases v.accept slot text <;> rfl

/-- To settle a scan is to take its pending slot in, and leaves none pending. -/
theorem settle_eq (s : Scan) : s.settle = s.accepted.map fun v => ⟨v, none⟩ := by
  obtain ⟨values, pending⟩ := s
  match pending with
  | none => rfl
  | some (_, none) => rfl
  | some (slot, some text) =>
    rw [accepted_pending]
    rfl

/-- A pending option is no path. -/
theorem hasPath_pending (h : slot ≠ .path) (v : Values) (value : Option String) :
    hasPath ⟨v, some (slot, value)⟩ = v.path.isSome := by
  cases slot with
  | path => exact absurd rfl h
  | debug | stepsPerTick | tickRate | scale | onUnknown | layout | outputFile =>
    exact Bool.or_false _

/-- Taking the pending slot in shows a path exactly if one was met. -/
theorem isSome_path_of_accepted (h : s.accepted = .ok v) : v.path.isSome = s.hasPath := by
  obtain ⟨values, pending⟩ := s
  match pending, h with
  | none, h =>
    cases h
    exact (Bool.or_false _).symm
  | some (_, none), h => cases h
  | some (slot, some text), h =>
    rw [accepted_pending] at h
    rw [Values.isSome_path_of_accept h, Scan.hasPath]
    cases slot <;> rfl

/-- What the arguments make of the values of a scan, whatever slot it holds back. Only whether a
path was met before them is fixed. -/
def Reads (scope : Scope) (arguments : List String) (met : Bool)
    (k : Values → Except Refusal Values) : Prop :=
  ∀ s : Scan, s.awaiting? = none → s.hasPath = met →
    (scanCommand scope arguments s).bind accepted = s.accepted.bind k

/-- No arguments make nothing of the values. -/
theorem reads_nil (scope : Scope) (met : Bool) : Reads scope [] met .ok := by
  intro s _ _
  show s.accepted = s.accepted.bind .ok
  cases s.accepted <;> rfl

/-- The argument is a flag of the scope for a slot, with the value that is attached to it. -/
def Opens (scope : Scope) (argument : String) (slot : Slot) (value : Option String) : Prop :=
  ∀ rest s, scanCommand scope (argument :: rest) s =
    (s.flag (.value slot) value).bind fun s => scanCommand scope rest s

/-- A long name of the scope opens its slot. -/
theorem opens_long {name : String} (htoken : Token.ofArgument argument = .long name value)
    (hname : scope.long? name = some (.value slot)) : Opens scope argument slot value := by
  intro rest s
  rw [scanCommand, htoken]
  dsimp only
  rw [long, hname]
  rfl

theorem opens_short {letter : Char} (htoken : Token.ofArgument argument = .short letter value)
    (hletter : scope.letter? letter = some (.value slot)) : Opens scope argument slot value := by
  intro rest s
  rw [scanCommand, htoken]
  dsimp only
  rw [short, hletter]

/-- A flag with its value attached. -/
theorem Reads.flag_attached (hrest : Reads scope rest met k)
    (hflag : Opens scope argument slot (some text)) (hslot : slot ≠ .path) :
    Reads scope (argument :: rest) met fun v => (v.accept slot text).bind k := by
  intro s _ hmet
  rw [hflag rest s]
  show ((s.take slot text).bind _).bind accepted = _
  rw [take, settle_eq]
  cases haccepted : s.accepted with
  | error r => rfl
  | ok v =>
    show (((v.accept slot text).map fun v => (⟨v, none⟩ : Scan)).bind _).bind accepted =
      (v.accept slot text).bind k
    cases haccept : v.accept slot text with
    | error r => rfl
    | ok w =>
      have hw : w.path.isSome = met := by
        rw [Values.isSome_path_of_accept haccept, isSome_path_of_accepted haccepted, hmet]
        simp [hslot]
      exact hrest ⟨w, none⟩ rfl (by rw [Scan.hasPath, hw, Bool.or_false])

/-- A flag with its value in an argument of its own. -/
theorem Reads.flag_separate (hrest : Reads scope rest met k)
    (hflag : Opens scope argument slot none) (hslot : slot ≠ .path)
    (hword : Token.ofArgument text = .word text) :
    Reads scope (argument :: text :: rest) met fun v => (v.accept slot text).bind k := by
  intro s _ hmet
  rw [hflag (text :: rest) s]
  show ((s.meet slot none).bind _).bind accepted = _
  rw [meet, settle_eq]
  cases haccepted : s.accepted with
  | error r => rfl
  | ok v =>
    -- the slot waits for its text, which the next argument gives; it is looked at after that
    show (scanCommand scope (text :: rest) ⟨v, some (slot, none)⟩).bind accepted =
      (v.accept slot text).bind k
    have hv : Scan.hasPath ⟨v, some (slot, some text)⟩ = met := by
      rw [hasPath_pending hslot, isSome_path_of_accepted haccepted, hmet]
    rw [scanCommand, hword]
    exact (hrest ⟨v, some (slot, some text)⟩ rfl hv).trans (by rw [accepted_pending])

/-- The path, if none was met before. -/
theorem Reads.path_word (hrest : Reads scope rest true k)
    (hword : Token.ofArgument path = .word path) (hpath : path ≠ "") :
    Reads scope (path :: rest) false fun v => k (v.withPath path) := by
  intro s hawait hnone
  rw [scanCommand, hword]
  dsimp only
  rw [word, hawait]
  dsimp only
  rw [Scan.path, hnone, if_neg Bool.false_ne_true, meet, settle_eq]
  cases haccepted : s.accepted with
  | error r => rfl
  | ok v =>
    have hv : v.path = none := by
      rw [← Option.isNone_iff_eq_none, ← Option.not_isSome, isSome_path_of_accepted haccepted,
        hnone, Bool.not_false]
    show (scanCommand scope rest ⟨v, some (.path, some path)⟩).bind accepted = _
    rw [hrest ⟨v, some (.path, some path)⟩ rfl (Bool.or_true _), accepted_pending,
      Values.accept_path hv hpath]
    rfl

/-- A command is read by what its arguments make of no values. -/
theorem readCommand_eq {arguments : List String} (h : Reads scope arguments false k) :
    readCommand scope arguments = (k Values.none).bind fun v =>
      match v.path with
      | some path => .ok (path, v)
      | none => .error .missingPath := by
  have haccepted := h start rfl rfl
  rw [show start.accepted.bind k = k Values.none from rfl] at haccepted
  rw [← haccepted, readCommand]
  cases scanCommand scope arguments start with
  | error r => rfl
  | ok s =>
    show s.settle.bind _ = (s.settle.map Scan.values).bind _
    cases s.settle <;> rfl

end Scan

end Chip8.CommandLine
