import StringMachines.Pattern.Segmentation
import StringMachines.Pattern.Validation

/-!
# Full matches and their captures

A full match is a segmentation of the whole text. Each group captures the piece it took last;
beside the ends of that piece, a capture keeps where the group's first piece began.
-/

namespace StringMachines

/-- What a group captured: the ends of its last piece, and where its first piece began. -/
structure Capture where
  runStart : Nat
  start : Nat
  stop : Nat
deriving DecidableEq, Repr

namespace Capture

/-- The capture of a group whose pieces begin at `position`; none when it took no piece. -/
def ofPieces? (position : Nat) (pieces : Pieces) : Option Capture :=
  pieces.getLast?.map fun last =>
    let stop := position + pieces.flatten.length
    { runStart := position, start := stop - last.length, stop }

/-- One slot per group, in order; the first item begins at `position`. -/
def ofSegmentation (position : Nat) : List Item → Segmentation → List (Option Capture)
  | item :: items, pieces :: rest =>
    let slots := ofSegmentation (position + pieces.flatten.length) items rest
    match item.atom with
    | .group _ => ofPieces? position pieces :: slots
    | _ => slots
  | _, _ => []

/-- The captured text. -/
def text (capture : Capture) (subject : Word) : Word :=
  (subject.drop capture.start).take (capture.stop - capture.start)

end Capture

namespace Pattern

/-- The captures of the first full match of the tokens with the subject. -/
def fullMatch? (tokens : List Token) (subject : Word) : Option (List (Option Capture)) :=
  let items := Item.ofTokens tokens
  (Segmentation.first? items subject).map (Capture.ofSegmentation 0 items)

/-- Whether the tokens match the whole subject. -/
def isFullMatch (tokens : List Token) (subject : Word) : Bool :=
  (Table.solve subject (Item.ofTokens tokens)).enter.after 0

/-- Whether the subject is a word of the pattern's language. -/
def accepts (p : Pattern) (subject : Word) : Bool :=
  isFullMatch p.tokens subject

end Pattern

end StringMachines
