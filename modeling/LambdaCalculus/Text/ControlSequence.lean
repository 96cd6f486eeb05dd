import LambdaCalculus.Text.Basic

/-!
# Control sequences

A terminal takes an escape character and what belongs to it as a control sequence, and shows neither sequences nor
control characters, white space apart.  `visible` gives the text that is left.  White space in a sequence that is no
string interrupts it: the text behind the white space is seen, up to the next control character, which resumes the
sequence, or the next character beyond ASCII, which ends it.  Text without control characters stays as it is
(`visible_eq`).
-/

namespace LambdaCalculus.Text

/-- Whether a control character is white space. -/
def isControlSpace (c : Char) : Bool := inRanges [(0x9, 0xA), (0xC, 0xD)] c

/-- Whether a character outside a sequence is seen. -/
def isVisible (c : Char) : Bool := inRanges [(0x9, 0xA), (0xC, 0xD), (0x20, 0x7E), (0x80, 0x10FFFF)] c

/-- A sequence that has begun, by what may follow. -/
inductive ControlSequence where
  /-- Nothing has followed the escape character. -/
  | escape
  /-- The escape character and intermediate characters. -/
  | intermediate
  /-- A sequence with parameters, up to a letter or the like. -/
  | parameters
  /-- The start of a device control string. -/
  | device
  /-- A device control string with parameters. -/
  | deviceParameters
  /-- A device control string with intermediate characters. -/
  | deviceIntermediate
  /-- A string up to its terminator. -/
  | string
  /-- A command for the operating system, up to a bell. -/
  | command
  deriving DecidableEq, Repr

namespace ControlSequence

/-- Whether a character holds the terminator of strings.  It is a byte, which may be a part of the character. -/
def hasTerminator (c : Char) : Bool := (String.utf8EncodeChar c).contains 0x9C

/-- Whether white space is seen within the sequence. -/
def allowsSpace : ControlSequence → Bool
  | escape | intermediate | parameters => true
  | _ => false

/-- The sequence behind an escape character and the given character, if there is one. -/
def ofIntroducer (c : Char) : Option ControlSequence :=
  match c with
  | '[' => some parameters
  | ']' => some command
  | 'P' => some device
  | 'X' | '^' | '_' => some string
  | c =>
    if inRanges [(0x20, 0x2F)] c then some intermediate
    else if inRanges [(0x30, 0x7E)] c then none
    else some escape

/-- The sequence after a further character, if it goes on.  Cancel and substitute end every sequence, and an escape
character begins another one. -/
def next (s : ControlSequence) (c : Char) : Option ControlSequence :=
  if c = '\x1B' then some escape
  else if inRanges [(0x18, 0x18), (0x1A, 0x1A)] c then none
  else match s with
    | escape => ofIntroducer c
    | intermediate => if inRanges [(0x30, 0x7E)] c then none else some intermediate
    | parameters => if inRanges [(0x40, 0x7E)] c then none else some parameters
    | device =>
      if inRanges [(0x20, 0x2F)] c then some deviceIntermediate
      else if inRanges [(0x30, 0x3F)] c then some deviceParameters
      else if inRanges [(0x40, 0x7E)] c then some string
      else some device
    | deviceParameters =>
      if inRanges [(0x20, 0x2F)] c then some deviceIntermediate
      else if inRanges [(0x3C, 0x7E)] c then some string
      else some deviceParameters
    | deviceIntermediate => if inRanges [(0x30, 0x7E)] c then some string else some deviceIntermediate
    | string => if hasTerminator c then none else some string
    | command => if c = '\x07' then none else some command

end ControlSequence

/-- What a terminal is reading. -/
inductive Display where
  | text
  | sequence (s : ControlSequence)
  /-- Text, after white space in a sequence. -/
  | interrupted (s : ControlSequence)
  deriving DecidableEq, Repr

namespace Display

/-- Reads on in a sequence. -/
def following (s : ControlSequence) (c : Char) : Display :=
  match s.next c with
  | some s => sequence s
  | none => text

/-- Reads a character, and says whether it is seen. -/
def step (d : Display) (c : Char) : Bool × Display :=
  match d with
  | text => if isVisible c then (true, text) else (false, if c = '\x1B' then sequence .escape else text)
  | sequence s => if s.allowsSpace && isControlSpace c then (true, interrupted s) else (false, following s c)
  | interrupted s =>
    if isVisible c then (true, if c.toNat < 0x80 then interrupted s else text) else (false, following s c)

end Display

/-- The part of a text that is seen. -/
def visibleFrom (d : Display) : List Char → List Char
  | [] => []
  | c :: rest =>
    match d.step c with
    | (true, d) => c :: visibleFrom d rest
    | (false, d) => visibleFrom d rest

/-- The part of a text that is seen on a terminal. -/
def visible (text : String) : String :=
  String.ofList (visibleFrom .text text.toList)

private theorem visibleFrom_text {cs : List Char} (h : ∀ c ∈ cs, isVisible c) : visibleFrom .text cs = cs := by
  induction cs with
  | nil => rfl
  | cons c cs ih =>
    rw [visibleFrom, Display.step, if_pos (h c (List.mem_cons_self ..))]
    exact congrArg (c :: ·) (ih fun x hx => h x (List.mem_cons_of_mem _ hx))

theorem visible_eq {text : String} (h : ∀ c ∈ text.toList, isVisible c) : visible text = text := by
  rw [visible, visibleFrom_text h, String.ofList_toList]

end LambdaCalculus.Text
