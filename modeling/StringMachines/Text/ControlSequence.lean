import StringMachines.Word

/-!
# Control sequences

A text for a terminal can hold control sequences: an escape character and the characters after it
that tell the terminal what to do. `Style.apply` writes sequences that set a text off, and
`plain` takes every sequence and every other control out again, for a reader that is no terminal.
Nothing that controls a terminal is left (`isShown_of_mem_plain`), and a text without controls
stays as it is (`plain_eq_self`).

A sequence that is never ended hides what follows it, up to the next escape character. A blank
control in the middle of a sequence, a tab say, is obeyed at once and so belongs to the plain
text; from there on the text is shown again until another control resumes the sequence.
-/

namespace StringMachines.Text

/-- How far a text has got into a control sequence. -/
inductive ControlState where
  /-- Outside of all sequences. -/
  | ground
  /-- After the escape character. -/
  | escape
  /-- After a character that announces another one. -/
  | announced
  /-- In the parameters of a sequence that `[` begins. -/
  | parameters
  /-- At the beginning of a device control sequence, which `P` begins. -/
  | device
  /-- In the parameters of a device control sequence. -/
  | deviceParameters
  /-- In a device control sequence, after a character that announces another one. -/
  | deviceAnnounced
  /-- In a string for a device or an application, which the string terminator ends. -/
  | string
  /-- In a command to the operating system, which `]` begins and a bell ends. -/
  | command
deriving DecidableEq, Repr

namespace ControlState

/-- Whether blank controls are obeyed in this state. Strings and what leads to them swallow
them. -/
def obeysBlanks : ControlState → Bool
  | ground | escape | announced | parameters => true
  | device | deviceParameters | deviceAnnounced | string | command => false

/-- The state after a character that is not shown. Cancel and substitute end every sequence, and
escape begins a new one. The string terminator is the byte 9C, also inside the encoding of another
character. -/
def next (s : ControlState) (c : Char) : ControlState :=
  let announces := ' ' ≤ c ∧ c ≤ '/'
  if c = '\x18' ∨ c = '\x1a' then ground
  else if c = '\x1b' then escape
  else match s with
  | ground => ground
  | escape =>
    if c = '[' then parameters
    else if c = ']' then command
    else if c = 'P' then device
    else if c = 'X' ∨ c = '^' ∨ c = '_' then string
    else if announces then announced
    else if '0' ≤ c ∧ c ≤ '~' then ground
    else escape
  | announced => if '0' ≤ c ∧ c ≤ '~' then ground else announced
  | parameters => if '@' ≤ c ∧ c ≤ '~' then ground else parameters
  | device =>
    if announces then deviceAnnounced
    else if '0' ≤ c ∧ c ≤ '?' then deviceParameters
    else if '@' ≤ c ∧ c ≤ '~' then string
    else device
  | deviceParameters =>
    if announces then deviceAnnounced
    else if '<' ≤ c ∧ c ≤ '~' then string
    else deviceParameters
  | deviceAnnounced => if '0' ≤ c ∧ c ≤ '~' then string else deviceAnnounced
  | string => if (String.utf8EncodeChar c).contains 0x9C then ground else string
  | command => if c = '\x07' then ground else command

end ControlState

/-! ## Plain text -/

/-- Whether a character is no control. The controls from U+0080 on are not taken for controls
here. -/
def isVisible (c : Char) : Bool :=
  ' ' ≤ c ∧ c ≠ '\x7f'

/-- The controls that leave a blank: tab, newline, form feed and carriage return. -/
def isBlankControl (c : Char) : Bool :=
  c = '\t' ∨ c = '\n' ∨ c = '\x0c' ∨ c = '\r'

/-- The rest of a text without control sequences. With `showing` the text is shown although a
sequence is open, because a blank control has interrupted it. A character beyond ASCII ends such
a sequence for good. -/
def plainFrom (showing : Bool) (s : ControlState) : Word → Word
  | [] => []
  | c :: w =>
    if isVisible c ∧ (showing ∨ s = .ground) then
      c :: plainFrom true (if c < '\x7f' then s else .ground) w
    else if isBlankControl c ∧ (showing ∨ s.obeysBlanks) then c :: plainFrom true s w
    else plainFrom false (s.next c) w

/-- A text without its control sequences and other controls. -/
def plain (w : Word) : Word :=
  plainFrom false .ground w

theorem isShown_of_mem_plainFrom {showing : Bool} {s : ControlState} {w : Word} {c : Char}
    (h : c ∈ plainFrom showing s w) : isVisible c = true ∨ isBlankControl c = true := by
  induction w generalizing showing s with
  | nil => simp [plainFrom] at h
  | cons d w ih =>
    rw [plainFrom] at h
    split at h
    · next hd =>
      obtain rfl | h := List.mem_cons.1 h
      · exact .inl hd.1
      · exact ih h
    · split at h
      · next hd =>
        obtain rfl | h := List.mem_cons.1 h
        · exact .inr hd.1
        · exact ih h
      · exact ih h

/-- A plain text holds no control but blank ones. -/
theorem isShown_of_mem_plain {w : Word} {c : Char} (h : c ∈ plain w) :
    isVisible c = true ∨ isBlankControl c = true :=
  isShown_of_mem_plainFrom h

theorem plainFrom_ground_eq_self {showing : Bool} {w : Word}
    (h : ∀ c ∈ w, isVisible c = true ∨ isBlankControl c = true) :
    plainFrom showing .ground w = w := by
  induction w generalizing showing with
  | nil => rfl
  | cons c w ih =>
    have hw := fun d hd => h d (List.mem_cons_of_mem c hd)
    rw [plainFrom]
    split
    · rw [ite_self, ih hw]
    · next hc =>
      have hblank : isBlankControl c = true :=
        (h c List.mem_cons_self).resolve_left fun hvis => hc ⟨hvis, .inr rfl⟩
      rw [if_pos ⟨hblank, .inr rfl⟩, ih hw]

/-- A text whose only controls are blank ones is plain. -/
theorem plain_eq_self {w : Word} (h : ∀ c ∈ w, isVisible c = true ∨ isBlankControl c = true) :
    plain w = w :=
  plainFrom_ground_eq_self h

/-! ## Styles -/

/-- A way to set a text off, as the codes that a terminal selects it by. -/
structure Style where
  codes : List Nat
deriving DecidableEq, Repr

namespace Style

/-- Bold. -/
def strong : Style := ⟨[1]⟩

/-- Bold and red. -/
def alarm : Style := ⟨[1, 31]⟩

/-- Yellow. -/
def caution : Style := ⟨[33]⟩

/-- The text between the sequences that select the style and the one that ends it. -/
def apply (style : Style) (text : String) : String :=
  String.join (style.codes.map fun code => "\x1b[" ++ toString code ++ "m") ++ text ++ "\x1b[0m"

end Style

end StringMachines.Text
