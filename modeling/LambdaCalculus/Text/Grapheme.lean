import LambdaCalculus.Text.GraphemeBreak

/-!
# Grapheme clusters

Text is cut into grapheme clusters, the characters that a reader sees: a letter with its accents, a syllable, a flag or
an emoji made of several code points is one cluster.  The rules are those of Unicode for extended grapheme clusters.
Nothing is lost (`flatten_clusters`).
-/

namespace LambdaCalculus.Text

/-- Whether the joiner at the end of a cluster belongs to an emoji, so that a pictograph can follow.  The code points of
the cluster before the joiner come last first. -/
def endsInPictograph (before : List Char) : Bool :=
  (before.dropWhile (GraphemeBreak.ofChar · == .extend)).head?.any isPictographic

/-- Whether a cluster, given last code point first, ends in a consonant with marks behind it, a virama among them. -/
def endsInLinkedConsonant (cluster : List Char) : Bool :=
  (cluster.takeWhile isConjunctExtend).any isConjunctLinker &&
    (cluster.dropWhile isConjunctExtend).head?.any isConjunctConsonant

/-- Whether a cluster, given last code point first, ends in a regional indicator that has no partner yet. -/
def endsInSingleIndicator (cluster : List Char) : Bool :=
  (cluster.takeWhile (GraphemeBreak.ofChar · == .regionalIndicator)).length % 2 = 1

/-- Whether the next code point belongs to a cluster, given last code point first. -/
def joins (cluster : List Char) (c : Char) : Bool :=
  match cluster with
  | [] => true
  | last :: before =>
    match GraphemeBreak.ofChar last, GraphemeBreak.ofChar c with
    | .carriageReturn, .newline => true
    | .control, _ | .carriageReturn, _ | .newline, _ => false
    | _, .control | _, .carriageReturn | _, .newline => false
    | .lead, .lead | .lead, .vowel | .lead, .leadVowel | .lead, .leadVowelTrail => true
    | .leadVowel, .vowel | .leadVowel, .trail | .vowel, .vowel | .vowel, .trail => true
    | .leadVowelTrail, .trail | .trail, .trail => true
    | _, .extend | _, .joiner | _, .spacingMark => true
    | .prepend, _ => true
    | .regionalIndicator, .regionalIndicator => endsInSingleIndicator cluster
    | lastBreak, _ =>
      isConjunctConsonant c && endsInLinkedConsonant cluster ||
        lastBreak == .joiner && isPictographic c && endsInPictograph before

/-- The clusters of a text, the first of which begins with the code points of `cluster`, given last first. -/
def clustersFrom (cluster : List Char) : List Char → List (List Char)
  | [] => if cluster.isEmpty then [] else [cluster.reverse]
  | c :: rest =>
    if joins cluster c then clustersFrom (c :: cluster) rest
    else cluster.reverse :: clustersFrom [c] rest

/-- The grapheme clusters of a text. -/
def clusters (text : List Char) : List (List Char) :=
  clustersFrom [] text

private theorem flatten_clustersFrom (cluster text : List Char) :
    (clustersFrom cluster text).flatten = cluster.reverse ++ text := by
  induction text generalizing cluster with
  | nil => cases cluster <;> simp [clustersFrom]
  | cons c rest ih =>
    unfold clustersFrom
    split <;> simp [ih]

theorem flatten_clusters (text : List Char) : (clusters text).flatten = text := by
  simp [clusters, flatten_clustersFrom]

end LambdaCalculus.Text
