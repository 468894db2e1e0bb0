/-!
# Sets of identifiers in words

A set of identifiers as a list of words of 64 bits: bit `i % 64` of word `i / 64` says
whether `i` is a member. The list is as long as some insertion or capacity asked for,
so it may end in words without members, and two sets of any lengths meet in the binary
operations. What is past the end of a list counts as zero.
-/

namespace Midend

/-- A finite set of identifiers, by words. -/
structure WordSet where
  /-- Trailing words may be zero. -/
  words : List UInt64
deriving Inhabited

namespace WordSet

/-! ## Words -/

/-- The word that an identifier is in, and its bit there. -/
def locate (i : Nat) : Nat × UInt64 := (i / 64, 1 <<< UInt64.ofNat (i % 64))

/-- The words, followed by zeros if they are fewer than `n`. -/
def grown (ws : List UInt64) (n : Nat) : List UInt64 := ws ++ List.replicate (n - ws.length) 0

/-- Combines each word with its counterpart. Words without one stay as they are. -/
def zipInto (f : UInt64 → UInt64 → UInt64) : List UInt64 → List UInt64 → List UInt64
  | a :: as, b :: bs => f a b :: zipInto f as bs
  | as, _ => as

/-- Combines each word with its counterpart, or with zero if it has none. -/
def zipPadded (f : UInt64 → UInt64 → UInt64) : List UInt64 → List UInt64 → List UInt64
  | [], _ => []
  | a :: as, [] => f a 0 :: zipPadded f as []
  | a :: as, b :: bs => f a b :: zipPadded f as bs

/-- The identifiers of the bits that are set in word `k`, in increasing order. -/
def wordMembers (k : Nat) (w : UInt64) : List Nat :=
  ((List.range 64).filter fun j => w &&& 1 <<< UInt64.ofNat j != 0).map (k * 64 + ·)

/-- The members by words, the first of which is word `k`. -/
def membersFrom : Nat → List UInt64 → List Nat
  | _, [] => []
  | k, w :: ws => wordMembers k w ++ membersFrom (k + 1) ws

/-! ## Operations -/

/-- The set without members, in no words at all. -/
def empty : WordSet := ⟨[]⟩

instance : EmptyCollection WordSet := ⟨empty⟩

/-- The empty set, with words for the identifiers below `n`. -/
def withCapacity (n : Nat) : WordSet := ⟨List.replicate ((n + 63) / 64) 0⟩

/-- Whether the bit of `i` is set; no number after the last word is a member. -/
def contains (s : WordSet) (i : Nat) : Bool :=
  let (k, mask) := locate i
  s.words[k]?.any fun w => w &&& mask != 0

/-- Inserts `i` and says whether it was absent. -/
def insert (s : WordSet) (i : Nat) : Bool × WordSet :=
  let (k, mask) := locate i
  let words := grown s.words (k + 1)
  let w := words.getD k 0
  (w &&& mask == 0, ⟨words.set k (w ||| mask)⟩)

/-- Removes `i` and says whether it was present. -/
def erase (s : WordSet) (i : Nat) : Bool × WordSet :=
  let (k, mask) := locate i
  match s.words[k]? with
  | some w => (w &&& mask != 0, ⟨s.words.set k (w &&& ~~~mask)⟩)
  | none => (false, s)

/-- The set of the members of a list. -/
def ofList (is : List Nat) : WordSet := is.foldl (fun s i => (s.insert i).2) ∅

/-- The set without members in as many words. -/
def clear (s : WordSet) : WordSet := ⟨s.words.map fun _ => 0⟩

/-- Adds the members of `t` and says whether one of them was absent. -/
def union (s t : WordSet) : Bool × WordSet :=
  let words := grown s.words t.words.length
  ((words.zip t.words).any fun (a, b) => a ||| b != a, ⟨zipInto (· ||| ·) words t.words⟩)

/-- The members of both sets, word by word. -/
def inter (s t : WordSet) : WordSet := ⟨zipPadded (· &&& ·) s.words t.words⟩

/-- The members of `s` that are not in `t`. -/
def diff (s t : WordSet) : WordSet := ⟨zipInto (fun a b => a &&& ~~~b) s.words t.words⟩

/-- Whether every member of `s` is one of `t`. -/
def isSubset (s t : WordSet) : Bool :=
  (zipPadded (fun a b => a &&& ~~~b) s.words t.words).all (· == 0)

/-- Whether no word of one set has a bit in common with that of the other. -/
def isDisjoint (s t : WordSet) : Bool := (s.words.zip t.words).all fun (a, b) => a &&& b == 0

/-- Whether no bit is set. -/
def isEmpty (s : WordSet) : Bool := s.words.all (· == 0)

/-- Whether the words agree and those that only one of the sets has are zero. -/
def eq (s t : WordSet) : Bool :=
  let (short, long) :=
    if s.words.length ≤ t.words.length then (s.words, t.words) else (t.words, s.words)
  long.take short.length == short && (long.drop short.length).all (· == 0)

instance : BEq WordSet := ⟨eq⟩

/-- The members in increasing order. -/
def toList (s : WordSet) : List Nat := membersFrom 0 s.words

/-- The number of members. -/
def size (s : WordSet) : Nat := s.words.foldr (fun w n => w.toBitVec.cpop.toNat + n) 0

/-- The members between braces: `{0, 99}`. -/
def text (s : WordSet) : String :=
  "\x7b" ++ ", ".intercalate (s.toList.map Nat.repr) ++ "\x7d"

end WordSet

end Midend
