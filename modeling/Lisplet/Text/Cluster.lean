import Lisplet.Text.BreakClass

/-! Extended grapheme clusters by the rules GB3 to GB13 of the Unicode standard. Whether a
cluster goes on is seen from the classes on both sides and from a trail, the little that
has to be known about the characters further back. Programs know nothing of clusters, which
serve only the lines that are typed at the command line. -/

namespace Lisplet.Text

namespace BreakClass

/-- Controls stand alone, but a line feed joins the carriage return before it. -/
def standsAlone : BreakClass → Bool
  | carriageReturn | lineFeed | control => true
  | _ => false

/-- What belongs to any character before it. -/
def isTrailing : BreakClass → Bool
  | mark | linker | nonJoiner | joiner | spacingMark => true
  | _ => false

/-- Whether two parts are neighbours in one Hangul syllable. -/
def inSyllable : BreakClass → BreakClass → Bool
  | leadingJamo, leadingJamo | leadingJamo, vowelJamo => true
  | leadingJamo, openSyllable | leadingJamo, closedSyllable => true
  | openSyllable, vowelJamo | vowelJamo, vowelJamo => true
  | openSyllable, trailingJamo | vowelJamo, trailingJamo => true
  | closedSyllable, trailingJamo | trailingJamo, trailingJamo => true
  | _, _ => false

end BreakClass

/-- What the characters up to a place have begun there. -/
inductive Trail where
  | nothing
  /-- A flag letter that has no partner yet. -/
  | flag
  /-- A pictograph, and perhaps marks behind it. -/
  | pictograph
  /-- The same with a joiner behind it. -/
  | joinedPictograph
  /-- A consonant, and perhaps marks behind it. -/
  | consonant
  /-- The same with a linker among the marks. -/
  | conjunct
deriving DecidableEq, Inhabited

namespace Trail

/-- The trail behind one more character, of the given class. -/
def step : Trail → BreakClass → Trail
  | flag, .flagLetter => nothing
  | _, .flagLetter => flag
  | _, .pictograph => pictograph
  | _, .consonant => consonant
  | pictograph, .mark | pictograph, .linker | pictograph, .nonJoiner => pictograph
  | pictograph, .joiner => joinedPictograph
  | consonant, .mark | consonant, .joiner => consonant
  | consonant, .linker => conjunct
  | conjunct, .mark | conjunct, .joiner | conjunct, .linker => conjunct
  | _, _ => nothing

/-- Whether a character of the given class completes what the trail began. -/
def awaits : Trail → BreakClass → Bool
  | flag, .flagLetter | joinedPictograph, .pictograph | conjunct, .consonant => true
  | _, _ => false

end Trail

/-- Whether a cluster goes on behind a character of class `before`, with its trail, into one
of class `after`. -/
def joins (before : BreakClass) (trail : Trail) (after : BreakClass) : Bool :=
  if before.standsAlone || after.standsAlone then
    before = .carriageReturn && after = .lineFeed
  else
    after.isTrailing || before = .prefixSign || before.inSyllable after || trail.awaits after

/-- The clusters of a text that begins with the characters of `cluster`, the last first; the
last of them has class `before` and leaves the trail. -/
def clustersFrom (cluster : List Char) (before : BreakClass) (trail : Trail) :
    List Char → List (List Char)
  | [] => [cluster.reverse]
  | c :: cs =>
    let after := BreakClass.ofChar c
    if joins before trail after then clustersFrom (c :: cluster) after (trail.step after) cs
    else cluster.reverse :: clustersFrom [c] after (trail.step after) cs

def clusters : List Char → List (List Char)
  | [] => []
  | c :: cs =>
    let first := BreakClass.ofChar c
    clustersFrom [c] first (Trail.nothing.step first) cs

end Lisplet.Text
