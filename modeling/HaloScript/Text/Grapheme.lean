/-
# Grapheme clusters

`Text.clusters` groups code points into what a reader perceives as one character: a base with
its marks, a Hangul syllable, a flag, a joined emoji.  `Break.between` states the rule between
two neighbours; it needs to know two things about what came before, whether a pictograph is
being extended and whether the number of regional indicators so far is odd.
-/
import HaloScript.Text.GraphemeClass

namespace HaloScript

/-- What a cluster remembers of its code points so far. -/
structure ClusterState where
  /-- The class of the last code point. -/
  last : GraphemeClass
  /-- A pictograph, extended by marks only, stands at the end. -/
  pictograph : Bool
  /-- That pictograph is followed by a joiner. -/
  joined : Bool
  /-- An odd number of regional indicators stands at the end. -/
  oddRegional : Bool

namespace ClusterState

def start (g : GraphemeClass) : ClusterState :=
  { last := g, pictograph := g == .pictographic, joined := false, oddRegional := g == .regional }

def push (s : ClusterState) (g : GraphemeClass) : ClusterState :=
  { last := g
    pictograph := g == .pictographic || (s.pictograph && g == .extend)
    joined := s.pictograph && g == .joiner
    oddRegional := g == .regional && !s.oddRegional }

/-- Whether a code point of class `g` belongs to the cluster that ends in state `s`. -/
def continues (s : ClusterState) (g : GraphemeClass) : Bool :=
  match s.last, g with
  | .carriageReturn, .lineFeed => true
  | .carriageReturn, _ | .lineFeed, _ | .control, _ => false
  | _, .carriageReturn | _, .lineFeed | _, .control => false
  | .hangulL, .hangulL | .hangulL, .hangulV | .hangulL, .hangulLV | .hangulL, .hangulLVT => true
  | .hangulLV, .hangulV | .hangulLV, .hangulT | .hangulV, .hangulV | .hangulV, .hangulT => true
  | .hangulLVT, .hangulT | .hangulT, .hangulT => true
  | _, .extend | _, .joiner | _, .spacingMark => true
  | .prepend, _ => true
  | .joiner, .pictographic => s.joined
  | .regional, .regional => s.oddRegional
  | _, _ => false

end ClusterState

namespace Text

/-- The clusters of what follows, given the open cluster (its code points in reverse). -/
def clustersFrom (s : ClusterState) (cluster : List Nat) : List Nat → List (List Nat)
  | [] => [cluster.reverse]
  | n :: rest =>
    let g := GraphemeClass.ofCode n
    if s.continues g then clustersFrom (s.push g) (n :: cluster) rest
    else cluster.reverse :: clustersFrom (.start g) [n] rest

/-- The code points grouped into grapheme clusters. -/
def clusters : List Nat → List (List Nat)
  | [] => []
  | n :: rest => clustersFrom (.start (GraphemeClass.ofCode n)) [n] rest

end Text

end HaloScript
