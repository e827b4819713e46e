import Mozkey.Lib.PrefixTree
import Mozkey.Storage.BitVectorBasedArrayBuilder

/-!
# Building the image of a trie

`LoudsTrieBuilder` sorts its words and goes over them once for every depth.  A word that is the
first one with its prefix of that depth gets an edge, and the last word below a node gets the
stop bit of the node; words that are used up are removed afterwards.

What is written in this way is the level-order sequence of the tree of all prefixes: a bit and a
character for every edge, whether a word ends there, and the ids of the words in the order in
which their ends are met.
-/

namespace Mozkey.Storage

open Mozkey.Lib

namespace LoudsTrieBuilder

/-! ## The builder -/

/-- A word and its index in the sorted list of words. -/
structure Entry where
  word : ByteString
  originalIndex : Nat
  deriving DecidableEq, Repr

/-- What `Build` writes while it goes over the words. -/
structure Streams where
  trieStream : BitStream := {}
  terminalStream : BitStream := {}
  edgeCharacter : ByteString := []
  idList : List Int
  id : Int := 0
  deriving Repr

/-- `word.compare(0, n, other, 0, n) != 0`. -/
def differs (n : Nat) (word other : ByteString) : Bool := word.take n != other.take n

/-- An edge, its character and whether it ends a word. -/
def pushEdge (depth : Nat) (entry : Entry) (streams : Streams) : Streams :=
  let streams := { streams with
    trieStream := streams.trieStream.pushBit true
    edgeCharacter := streams.edgeCharacter ++ [byteAt entry.word depth] }
  if entry.word.length = depth + 1 then
    { streams with
      terminalStream := streams.terminalStream.pushBit true
      idList := streams.idList.set entry.originalIndex streams.id
      id := streams.id + 1 }
  else { streams with terminalStream := streams.terminalStream.pushBit false }

/-- The first test for an entry: whether a node is created. -/
def visitEdge (depth : Nat) (prev : Option Entry) (entry : Entry) (streams : Streams) : Streams :=
  if entry.word.length > depth ∧ prev.all fun prev => differs (depth + 1) entry.word prev.word then
    pushEdge depth entry streams
  else streams

/-- The second test for an entry: whether it is the last one of its parent. -/
def visitStop (depth : Nat) (entry : Entry) (next : Option Entry) (streams : Streams) : Streams :=
  if next.all fun next => differs depth entry.word next.word then
    { streams with trieStream := streams.trieStream.pushBit false }
  else streams

/-- The loop over the entries. -/
def visitEntries (depth : Nat) : Option Entry → List Entry → Streams → Streams
  | _, [], streams => streams
  | prev, entry :: rest, streams =>
      visitEntries depth (some entry) rest
        (visitStop depth entry rest.head? (visitEdge depth prev entry streams))

/-- The loop over the depths.  It ends when no entry is left, which takes one round more than the
longest word has characters. -/
def visitDepths : Nat → Nat → List Entry → Streams → Streams
  | 0, _, _, streams => streams
  | rounds + 1, depth, entryList, streams =>
      if entryList = [] then streams
      else visitDepths rounds (depth + 1)
        (entryList.filter fun entry => ¬ entry.word.length < depth + 1)
        (visitEntries depth none entryList streams)

end LoudsTrieBuilder

/-- `LoudsTrieBuilder`. -/
structure LoudsTrieBuilder where
  built : Bool := false
  wordList : List ByteString := []
  idList : List Int := []
  image : ByteString := []
  deriving Repr

namespace LoudsTrieBuilder

/-- `Add`. -/
def add (builder : LoudsTrieBuilder) (word : ByteString) : Except Failure LoudsTrieBuilder :=
  if builder.built ∨ word = [] then .error .checkFails
  else .ok { builder with wordList := builder.wordList ++ [word] }

/-- The words, sorted and without duplicates. -/
def sortWords (wordList : List ByteString) : List ByteString :=
  (wordList.insertionSort (· ≤ ·)).destutter (· ≠ ·)

def entriesOf (wordList : List ByteString) : List Entry :=
  wordList.zipIdx.map fun entry => ⟨entry.1, entry.2⟩

/-- The streams with the root. -/
def rootStreams (wordList : List ByteString) : Streams where
  trieStream := (BitStream.pushBit {} true).pushBit false
  terminalStream := BitStream.pushBit {} false
  edgeCharacter := [0]
  idList := List.replicate wordList.length (-1)

def buildStreams (wordList : List ByteString) : Streams :=
  visitDepths (PrefixTree.depth wordList + 1) 0 (entriesOf wordList) (rootStreams wordList)

/-- `Build`. -/
def build (builder : LoudsTrieBuilder) : Except Failure LoudsTrieBuilder := do
  if builder.built then throw .checkFails
  let wordList := sortWords builder.wordList
  let streams := buildStreams wordList
  let trieStream := streams.trieStream.fillPadding32
  let terminalStream := streams.terminalStream.fillPadding32
  let image ← BitVectorBasedArrayBuilder.pushInt32 trieStream.image.length builder.image
  let image ← BitVectorBasedArrayBuilder.pushInt32 terminalStream.image.length image
  let image ← BitVectorBasedArrayBuilder.pushInt32 8 image
  let image ← BitVectorBasedArrayBuilder.pushInt32 streams.edgeCharacter.length image
  return {
    built := true
    wordList
    idList := streams.idList
    image := image ++ trieStream.image ++ terminalStream.image ++ streams.edgeCharacter }

/-- `GetId`. -/
def getId (builder : LoudsTrieBuilder) (word : ByteString) : Except Failure Int :=
  if ¬ builder.built then .error .checkFails
  else
    let position := builder.wordList.findIdx fun other => ¬ other < word
    if builder.wordList[position]? ≠ some word then .ok (-1)
    else elementAt builder.idList position

/-! ## What has been written -/

/-- The character of the edge to a node, and a zero byte for the root. -/
def edgeLabel (node : ByteString) : UInt8 := node.getLastD 0

/-- The words among some nodes. -/
def wordsAmong (words listed : List ByteString) : List ByteString :=
  listed.filter fun node => decide (node ∈ words)

/-- The id of a word, when the ends of some words have been met. -/
def idAmong (met : List ByteString) (word : ByteString) : Int :=
  if word ∈ met then met.idxOf word else -1

/-- Some bits and nodes have been written. -/
structure Written (words : List ByteString) (streams : Streams) (bits : List Bool)
    (listed : List ByteString) : Prop where
  trie : streams.trieStream.Holds bits
  terminal : streams.terminalStream.Holds (listed.map fun node => decide (node ∈ words))
  edges : streams.edgeCharacter = listed.map edgeLabel
  idList : streams.idList = words.map (idAmong (wordsAmong words listed))
  id : streams.id = (wordsAmong words listed).length

variable {words : List ByteString}

theorem idAmong_append_self {met : List ByteString} {word : ByteString} (fresh : word ∉ met) :
    idAmong (met ++ [word]) word = met.length := by
  rw [idAmong, if_pos (by simp), List.idxOf_append_of_notMem fresh, List.idxOf_cons_self,
    Nat.add_zero]

theorem idAmong_append_of_ne {met : List ByteString} {word other : ByteString}
    (differ : other ≠ word) : idAmong (met ++ [word]) other = idAmong met other := by
  unfold idAmong
  by_cases member : other ∈ met
  · rw [if_pos (List.mem_append_left _ member), if_pos member,
      List.idxOf_append_of_mem member]
  · rw [if_neg member, if_neg]
    simp [member, differ]

/-- An edge is written for a node whose first word is at hand. -/
theorem Written.pushEdge {streams : Streams} {bits : List Bool} {listed : List ByteString}
    (written : Written words streams bits listed) (distinct : words.Nodup) {depth : Nat}
    {entry : Entry} {node : ByteString} (known : words[entry.originalIndex]? = some entry.word)
    (extends_ : node <+: entry.word) (length : node.length = depth + 1)
    (first : node ∈ words → entry.word = node) (fresh : node ∉ listed) :
    Written words (pushEdge depth entry streams) (bits ++ [true]) (listed ++ [node]) := by
  obtain ⟨rest, isWord⟩ := extends_
  have character : byteAt entry.word depth = edgeLabel node := by
    obtain ⟨init, last, rfl⟩ : ∃ init last, node = init ++ [last] := by
      refine ⟨node.dropLast, node.getLast ?_, (List.dropLast_append_getLast _).symm⟩
      rintro rfl
      cases length
    rw [List.length_append, List.length_singleton, Nat.add_right_cancel_iff] at length
    rw [← isWord, edgeLabel, List.getLastD_concat, ← length, List.append_assoc,
      byteAt_append_length]
    rfl
  have isEnd : entry.word.length = depth + 1 ↔ node ∈ words := by
    constructor
    · intro short
      rw [← isWord, List.length_append, length] at short
      obtain rfl := List.eq_nil_of_length_eq_zero (show rest.length = 0 by omega)
      rw [List.append_nil] at isWord
      rw [isWord]
      exact List.mem_of_getElem? known
    · intro member
      rw [first member, length]
  have among : node ∉ wordsAmong words listed := fun member => fresh (List.mem_filter.1 member).1
  have more : wordsAmong words (listed ++ [node])
      = wordsAmong words listed ++ if node ∈ words then [node] else [] := by
    rw [wordsAmong, List.filter_append, ← wordsAmong]
    congr 1
    by_cases member : node ∈ words <;> simp [member]
  have edges : (streams.edgeCharacter ++ [byteAt entry.word depth])
      = (listed ++ [node]).map edgeLabel := by
    rw [written.edges, character, List.map_append, List.map_singleton]
  unfold LoudsTrieBuilder.pushEdge
  dsimp only
  by_cases member : node ∈ words
  · rw [if_pos (isEnd.2 member)]
    rw [if_pos member] at more
    refine ⟨written.trie.pushBit true, ?_, edges, ?_, ?_⟩
    · rw [List.map_append, List.map_singleton, decide_eq_true member]
      exact written.terminal.pushBit true
    · show streams.idList.set entry.originalIndex streams.id = _
      rw [written.idList, written.id, more]
      refine List.ext_getElem? fun i => ?_
      rw [List.getElem?_set, List.length_map, List.getElem?_map, List.getElem?_map]
      obtain ⟨inside, isEntry⟩ := List.getElem?_eq_some_iff.1 known
      split
      · next same =>
        subst same
        rw [known, first member, Option.map_some, idAmong_append_self among]
      · next other =>
        cases here : words[i]? with
        | none => rfl
        | some word =>
            refine congrArg some (idAmong_append_of_ne fun same => other ?_).symm
            obtain ⟨inside', isWord'⟩ := List.getElem?_eq_some_iff.1 here
            exact (List.Nodup.getElem_inj_iff distinct).1
              (isEntry.trans ((first member).trans (same.symm.trans isWord'.symm)))
    · show streams.id + 1 = _
      rw [written.id, more, List.length_append, List.length_singleton]
      rfl
  · rw [if_neg (mt isEnd.1 member)]
    rw [if_neg member, List.append_nil] at more
    refine ⟨written.trie.pushBit true, ?_, edges, ?_, ?_⟩
    · rw [List.map_append, List.map_singleton, decide_eq_false member]
      exact written.terminal.pushBit false
    · rw [more]
      exact written.idList
    · rw [more]
      exact written.id

theorem Written.pushStop {streams : Streams} {bits : List Bool} {listed : List ByteString}
    (written : Written words streams bits listed) :
    Written words { streams with trieStream := streams.trieStream.pushBit false }
      (bits ++ [false]) listed :=
  ⟨written.trie.pushBit false, written.terminal, written.edges, written.idList, written.id⟩

/-! ## One round -/

/-- The entries of a list, with the one behind them. -/
def visitPart (depth : Nat) : Option Entry → List Entry → Option Entry → Streams → Streams
  | _, [], _, streams => streams
  | prev, entry :: rest, next, streams =>
      visitPart depth (some entry) rest next
        (visitStop depth entry (rest.head?.or next) (visitEdge depth prev entry streams))

theorem visitEntries_eq (depth : Nat) (prev : Option Entry) (entries : List Entry)
    (streams : Streams) :
    visitEntries depth prev entries streams = visitPart depth prev entries none streams := by
  induction entries generalizing prev streams with
  | nil => rfl
  | cons entry rest ih =>
      rw [visitEntries, visitPart, ih, Option.or_none]

theorem visitPart_append (depth : Nat) (prev : Option Entry) (front back : List Entry)
    (next : Option Entry) (streams : Streams) :
    visitPart depth prev (front ++ back) next streams
      = visitPart depth (front.getLast?.or prev) back next
          (visitPart depth prev front (back.head?.or next) streams) := by
  induction front generalizing prev streams with
  | nil => rfl
  | cons entry rest ih =>
      rw [List.cons_append, visitPart, visitPart, ih, List.getLast?_cons, Option.some_or]
      congr 1
      · cases rest.getLast? <;> rfl
      · rw [List.head?_append]
        cases rest.head? <;> rfl

/-- The entry behind some entries does not belong to a node of so many characters. -/
def Ends (depth : Nat) (node : ByteString) (next : Option Entry) : Prop :=
  ∀ entry ∈ next, entry.word.take depth ≠ node

section Round

variable {depth : Nat} {streams : Streams} {bits : List Bool} {listed : List ByteString}

theorem visitStop_of_ends {entry : Entry} {node : ByteString} {next : Option Entry}
    (isNode : entry.word.take depth = node) (ends : Ends depth node next) :
    visitStop depth entry next streams
      = { streams with trieStream := streams.trieStream.pushBit false } := by
  refine if_pos ?_
  rw [Option.all_eq_true]
  intro other isNext
  rw [differs, isNode]
  exact bne_iff_ne.2 (Ne.symm (ends other isNext))

theorem visitStop_of_same {entry other : Entry}
    (same : entry.word.take depth = other.word.take depth) :
    visitStop depth entry (some other) streams = streams := by
  refine if_neg ?_
  rw [Option.all_some, differs, same, bne_self_eq_false]
  exact Bool.false_ne_true

theorem visitEdge_of_same {prev entry : Entry}
    (same : entry.word.take (depth + 1) = prev.word.take (depth + 1)) :
    visitEdge depth (some prev) entry streams = streams := by
  refine if_neg fun both => ?_
  have differ := both.2
  rw [Option.all_some, differs, same, bne_self_eq_false] at differ
  exact Bool.false_ne_true differ

theorem take_of_isPrefix {n : Nat} {node word : ByteString} (extends_ : node <+: word)
    (length : node.length = n) : word.take n = node := by
  rw [← length]
  exact (List.prefix_iff_eq_take.1 extends_).symm

/-- Behind its first entry, the entries of a node write nothing but the stop bit of its parent. -/
theorem visitPart_rest {node : ByteString} (entry : Entry) (rest : List Entry)
    (next : Option Entry) (all : ∀ other ∈ entry :: rest, other.word.take (depth + 1) = node) :
    visitPart depth (some entry) rest next (visitStop depth entry (rest.head?.or next) streams)
      = visitStop depth entry next streams := by
  induction rest generalizing entry streams with
  | nil => rfl
  | cons other rest ih =>
      rw [List.forall_mem_cons] at all
      have here := all.1
      have there := all.2 other List.mem_cons_self
      have parent : entry.word.take depth = other.word.take depth := by
        have cut := congrArg (List.take depth) (here.trans there.symm)
        rwa [List.take_take, List.take_take, Nat.min_eq_left (Nat.le_succ depth)] at cut
      rw [List.head?_cons, Option.some_or, visitStop_of_same parent, visitPart,
        visitEdge_of_same (there.trans here.symm), ih other all.2]
      unfold visitStop differs
      rw [parent]

/-- The entries are those of some words. -/
def AreEntries (words : List ByteString) (entries : List Entry) : Prop :=
  ∀ entry ∈ entries, words[entry.originalIndex]? = some entry.word

/-- The words below a node of the next level write its edge. -/
theorem Written.visitNode (written : Written words streams bits listed)
    (sorted : words.Pairwise (· < ·)) {entry : Entry} {rest : List Entry}
    {prev : Option Entry} (next : Option Entry) {node : ByteString}
    (known : AreEntries words (entry :: rest))
    (below : (entry :: rest).map Entry.word = PrefixTree.below words node)
    (length : node.length = depth + 1) (fresh : node ∉ listed)
    (before : Ends (depth + 1) node prev) :
    ∃ streams', visitPart depth prev (entry :: rest) next streams
        = visitStop depth entry next streams' ∧
      Written words streams' (bits ++ [true]) (listed ++ [node]) := by
  have isBelow : ∀ other ∈ entry :: rest, node <+: other.word := by
    intro other member
    have inside : other.word ∈ (entry :: rest).map Entry.word := List.mem_map_of_mem member
    rw [below] at inside
    exact (PrefixTree.mem_below.1 inside).2
  have extends_ := isBelow entry List.mem_cons_self
  have first (member : node ∈ words) : entry.word = node := by
    have head : entry.word :: rest.map Entry.word
        = node :: (PrefixTree.children words node).flatMap (PrefixTree.below words) := by
      rw [← List.map_cons, below, PrefixTree.below_eq sorted, if_pos member]
      rfl
    exact (List.cons.inj head).1
  have isNew : visitEdge depth prev entry streams = LoudsTrieBuilder.pushEdge depth entry streams := by
    refine if_pos ⟨?_, ?_⟩
    · have := extends_.length_le
      omega
    · rw [Option.all_eq_true]
      intro other isPrev
      rw [differs, take_of_isPrefix extends_ length]
      exact bne_iff_ne.2 (Ne.symm (before other isPrev))
  refine ⟨_, ?_, written.pushEdge (sorted.imp ne_of_lt) (known entry List.mem_cons_self) extends_
    length first fresh⟩
  rw [visitPart, isNew]
  exact visitPart_rest entry rest next fun other member =>
    take_of_isPrefix (isBelow other member) length

/-- The words below some children of a node write their edges, and the stop bit of the node when
nothing below the node comes behind them. -/
theorem Written.visitChildren (written : Written words streams bits listed)
    (sorted : words.Pairwise (· < ·)) {entries : List Entry} {prev next : Option Entry}
    {node : ByteString} {letters : List UInt8} (length : node.length = depth)
    (known : AreEntries words entries)
    (below : entries.map Entry.word
      = (letters.map fun c => node ++ [c]).flatMap (PrefixTree.below words))
    (isLabel : ∀ c ∈ letters, c ∈ PrefixTree.labels words node) (distinct : letters.Nodup)
    (fresh : ∀ c ∈ letters, node ++ [c] ∉ listed) (some_ : letters ≠ [])
    (before : ∀ c ∈ letters, Ends (depth + 1) (node ++ [c]) prev) (ends : Ends depth node next) :
    Written words (visitPart depth prev entries next streams)
      (bits ++ (List.replicate letters.length true ++ [false]))
      (listed ++ letters.map fun c => node ++ [c]) := by
  induction letters generalizing entries prev streams bits listed with
  | nil => exact absurd rfl some_
  | cons c others ih =>
      rw [List.map_cons, List.flatMap_cons] at below
      obtain ⟨front, back, rfl, isFront, isBack⟩ := List.map_eq_append_iff.1 below
      have lengthChild : (node ++ [c]).length = depth + 1 := by
        rw [List.length_append, List.length_singleton, length]
      obtain ⟨entry, rest, rfl⟩ : ∃ entry rest, front = entry :: rest := by
        cases front with
        | cons entry rest => exact ⟨entry, rest, rfl⟩
        | nil =>
            obtain ⟨w, member, extends_⟩ :=
              PrefixTree.mem_labels.1 (isLabel c List.mem_cons_self)
            have isBelow := PrefixTree.mem_below.2 ⟨member, extends_⟩
            rw [← isFront] at isBelow
            cases isBelow
      have isBelow : ∀ other ∈ entry :: rest, node ++ [c] <+: other.word := by
        intro other member
        have inside : other.word ∈ (entry :: rest).map Entry.word := List.mem_map_of_mem member
        rw [isFront] at inside
        exact (PrefixTree.mem_below.1 inside).2
      have isNode : ∀ other ∈ entry :: rest, other.word.take depth = node := fun other member =>
        take_of_isPrefix ((List.prefix_append node [c]).trans (isBelow other member)) length
      obtain ⟨streams', visited, written'⟩ := written.visitNode sorted
        (back.head?.or next) (fun other member => known other (List.mem_append_left _ member))
        isFront lengthChild (fresh c List.mem_cons_self) (before c List.mem_cons_self)
      rw [visitPart_append, visited]
      cases others with
      | nil =>
          obtain rfl : back = [] := List.map_eq_nil_iff.1 isBack
          rw [List.head?_nil, Option.none_or,
            visitStop_of_ends (isNode entry List.mem_cons_self) ends, visitPart]
          have stopped := written'.pushStop
          rw [List.append_assoc] at stopped
          exact stopped
      | cons d others =>
          obtain ⟨other, back, rfl⟩ : ∃ other rest, back = other :: rest := by
            cases back with
            | cons other rest => exact ⟨other, rest, rfl⟩
            | nil =>
                obtain ⟨w, member, extends_⟩ := PrefixTree.mem_labels.1
                  (isLabel d (List.mem_cons_of_mem _ List.mem_cons_self))
                have inside := PrefixTree.mem_below.2 ⟨member, extends_⟩
                rw [List.map_cons, List.flatMap_cons] at isBack
                have none_ := (List.append_eq_nil_iff.1 isBack.symm).1
                rw [none_] at inside
                cases inside
          have isOther : node <+: other.word := by
            have inside : other.word ∈ (other :: back).map Entry.word := List.mem_cons_self
            rw [isBack, List.mem_flatMap] at inside
            obtain ⟨q, isChild, inside⟩ := inside
            obtain ⟨e, -, rfl⟩ := List.mem_map.1 isChild
            exact (List.prefix_append node [e]).trans (PrefixTree.mem_below.1 inside).2
          have same : entry.word.take depth = other.word.take depth := by
            rw [isNode entry List.mem_cons_self, take_of_isPrefix isOther length]
          have lastBelow : ∀ e ∈ d :: others,
              Ends (depth + 1) (node ++ [e]) ((entry :: rest).getLast?.or prev) := by
            intro e member last isLast same
            rw [List.getLast?_eq_some_getLast (List.cons_ne_nil _ _), Option.some_or,
              Option.mem_some_iff] at isLast
            have inside := isBelow last (isLast ▸ List.getLast_mem _)
            rw [take_of_isPrefix inside lengthChild] at same
            have equal : c = e := List.singleton_inj.1 (List.append_cancel_left same)
            exact (List.nodup_cons.1 distinct).1 (equal ▸ member)
          rw [List.head?_cons, Option.some_or, visitStop_of_same same]
          have visitedAll := ih written' (fun other member => known other
            (List.mem_append_right _ member)) isBack
            (fun e member => isLabel e (List.mem_cons_of_mem _ member))
            (List.nodup_cons.1 distinct).2 (fun e member inside => by
              rcases List.mem_append.1 inside with old | new
              · exact fresh e (List.mem_cons_of_mem _ member) old
              · have equal : e = c :=
                  List.singleton_inj.1 (List.append_cancel_left (List.mem_singleton.1 new))
                exact (List.nodup_cons.1 distinct).1 (equal ▸ member))
            (List.cons_ne_nil _ _) lastBelow
          rw [List.append_assoc, List.append_assoc] at visitedAll
          exact visitedAll

/-- The bits of a node. -/
def nodeBits (words : List ByteString) (node : ByteString) : List Bool :=
  List.replicate (PrefixTree.children words node).length true ++ [false]

variable (words) in
/-- Where there are letters, there are words below the children. -/
theorem labels_eq_nil_iff (node : ByteString) :
    PrefixTree.labels words node = [] ↔
      (PrefixTree.children words node).flatMap (PrefixTree.below words) = [] := by
  constructor
  · intro none_
    rw [PrefixTree.children, none_]
    rfl
  · intro none_
    rw [List.flatMap_eq_nil_iff] at none_
    refine List.eq_nil_iff_forall_not_mem.2 fun c isLabel => ?_
    obtain ⟨w, member, extends_⟩ := PrefixTree.mem_labels.1 isLabel
    have isChild : node ++ [c] ∈ PrefixTree.children words node :=
      PrefixTree.mem_children.2 ⟨c, rfl, w, member, extends_⟩
    have inside := PrefixTree.mem_below.2 ⟨member, extends_⟩
    rw [none_ _ isChild] at inside
    cases inside

/-- **The words below a node** write the edges to its children and its stop bit. -/
theorem Written.visitParent (written : Written words streams bits listed)
    (sorted : words.Pairwise (· < ·)) {entries : List Entry} {prev : Option Entry}
    (next : Option Entry) {node : ByteString} (length : node.length = depth)
    (known : AreEntries words entries)
    (below : entries.map Entry.word = PrefixTree.below words node) (some_ : entries ≠ [])
    (fresh : ∀ child ∈ PrefixTree.children words node, child ∉ listed)
    (before : Ends depth node prev) (ends : Ends depth node next) :
    Written words (visitPart depth prev entries next streams) (bits ++ nodeBits words node)
      (listed ++ PrefixTree.children words node) := by
  have distinct : (PrefixTree.labels words node).Nodup :=
    (PrefixTree.pairwise_labels sorted node).imp ne_of_lt
  have freshChild : ∀ c ∈ PrefixTree.labels words node, node ++ [c] ∉ listed := fun c member =>
    fresh _ (List.mem_map_of_mem member)
  have bitsForm : nodeBits words node
      = List.replicate (PrefixTree.labels words node).length true ++ [false] := by
    rw [nodeBits, PrefixTree.children, List.length_map]
  have split := PrefixTree.below_eq sorted node
  rw [bitsForm]
  by_cases member : node ∈ words
  · rw [split, if_pos member, List.singleton_append] at below
    obtain ⟨entry, rest, rfl, isNode, isRest⟩ := List.map_eq_cons_iff.1 below
    have short : visitEdge depth prev entry streams = streams := by
      refine if_neg fun both => ?_
      have := both.1
      rw [isNode, length] at this
      exact Nat.lt_irrefl _ this
    have isTake : entry.word.take depth = node := by
      rw [isNode, ← length, List.take_length]
    rw [visitPart, short]
    cases rest with
    | nil =>
        have noLabels := (labels_eq_nil_iff words node).2 isRest.symm
        have noChildren : PrefixTree.children words node = [] := by
          rw [PrefixTree.children, noLabels]
          rfl
        rw [noChildren, noLabels, List.append_nil, List.head?_nil, Option.none_or,
          visitStop_of_ends isTake ends, visitPart]
        exact written.pushStop
    | cons other rest =>
        have isOther : other.word.take depth = node := by
          have inside : other.word ∈ (other :: rest).map Entry.word := List.mem_cons_self
          rw [isRest, List.mem_flatMap] at inside
          obtain ⟨q, isChild, inside⟩ := inside
          obtain ⟨c, rfl, -⟩ := PrefixTree.mem_children.1 isChild
          exact take_of_isPrefix
            ((List.prefix_append node [c]).trans (PrefixTree.mem_below.1 inside).2) length
        rw [List.head?_cons, Option.some_or, visitStop_of_same (isTake.trans isOther.symm)]
        refine written.visitChildren sorted length
          (fun entry inside => known entry (List.mem_cons_of_mem _ inside)) isRest
          (fun c isLabel => isLabel) distinct freshChild ?_ ?_ ends
        · intro none_
          have none_ := (labels_eq_nil_iff words node).1 none_
          rw [none_] at isRest
          cases isRest
        · intro c _ prev isPrev same
          rw [Option.mem_some_iff] at isPrev
          rw [← isPrev, isNode, List.take_of_length_le (by omega)] at same
          have := congrArg List.length same
          rw [List.length_append, List.length_singleton] at this
          omega
  · rw [split, if_neg member, List.nil_append] at below
    refine written.visitChildren sorted length known below (fun c isLabel => isLabel) distinct
      freshChild ?_ ?_ ends
    · intro none_
      rw [(labels_eq_nil_iff words node).1 none_] at below
      exact some_ (List.map_eq_nil_iff.1 below)
    · intro c _ prev isPrev same
      refine before prev isPrev ?_
      have cut := congrArg (List.take depth) same
      rw [List.take_take, Nat.min_eq_left (Nat.le_succ depth)] at cut
      rw [cut, ← length, List.take_left]

/-- **The words below the nodes of a level** write the edges to the next level. -/
theorem Written.visitLevel (written : Written words streams bits listed)
    (sorted : words.Pairwise (· < ·)) {entries : List Entry} (prev : Option Entry)
    {level : List ByteString} (distinct : level.Nodup) (length : ∀ node ∈ level, node.length = depth)
    (some_ : ∀ node ∈ level, PrefixTree.below words node ≠ []) (known : AreEntries words entries)
    (below : entries.map Entry.word = level.flatMap (PrefixTree.below words))
    (fresh : ∀ node ∈ level, ∀ child ∈ PrefixTree.children words node, child ∉ listed)
    (before : ∀ node ∈ level, Ends depth node prev) :
    Written words (visitPart depth prev entries none streams)
      (bits ++ level.flatMap (nodeBits words))
      (listed ++ level.flatMap (PrefixTree.children words)) := by
  induction level generalizing entries prev streams bits listed with
  | nil =>
      obtain rfl := List.map_eq_nil_iff.1 below
      rw [List.flatMap_nil, List.flatMap_nil, List.append_nil, List.append_nil]
      exact written
  | cons node level ih =>
      rw [List.flatMap_cons] at below
      obtain ⟨front, back, rfl, isFront, isBack⟩ := List.map_eq_append_iff.1 below
      rw [List.nodup_cons] at distinct
      rw [List.forall_mem_cons] at length some_ fresh before
      have isNode : ∀ entry ∈ front, entry.word.take depth = node := by
        intro entry member
        have inside : entry.word ∈ front.map Entry.word := List.mem_map_of_mem member
        rw [isFront] at inside
        exact take_of_isPrefix (PrefixTree.mem_below.1 inside).2 length.1
      have isLater : ∀ entry ∈ back, entry.word.take depth ∈ level := by
        intro entry member
        have inside : entry.word ∈ back.map Entry.word := List.mem_map_of_mem member
        rw [isBack, List.mem_flatMap] at inside
        obtain ⟨other, isOther, inside⟩ := inside
        rw [take_of_isPrefix (PrefixTree.mem_below.1 inside).2 (length.2 other isOther)]
        exact isOther
      have nonempty : front ≠ [] := by
        rintro rfl
        exact some_.1 isFront.symm
      rw [visitPart_append, Option.or_none]
      have visited := written.visitParent sorted back.head? length.1
        (fun entry member => known entry (List.mem_append_left _ member)) isFront nonempty fresh.1
        before.1 (by
          intro entry isNext same
          exact distinct.1 (same ▸ isLater entry (List.mem_of_mem_head? isNext)))
      have visitedAll := ih visited (front.getLast?.or prev) distinct.2 length.2 some_.2
        (fun entry member => known entry (List.mem_append_right _ member)) isBack (by
          intro other isOther child isChild inside
          rcases List.mem_append.1 inside with old | new
          · exact fresh.2 other isOther child isChild old
          · obtain ⟨c, rfl, -⟩ := PrefixTree.mem_children.1 isChild
            obtain ⟨d, same, -⟩ := PrefixTree.mem_children.1 new
            have equal := (List.append_inj' same rfl).1
            exact distinct.1 (equal ▸ isOther))
        (by
          intro other isOther entry isPrev same
          rw [List.getLast?_eq_some_getLast nonempty, Option.some_or, Option.mem_some_iff] at isPrev
          have here := isNode entry (isPrev ▸ List.getLast_mem _)
          rw [same] at here
          exact distinct.1 (here ▸ isOther))
      rw [List.append_assoc, List.append_assoc] at visitedAll
      exact visitedAll

end Round

/-! ## All rounds -/

/-- The words that reach a depth, with their indices. -/
theorem visitDepths_written (sorted : words.Pairwise (· < ·)) (some_ : words ≠ [])
    (rounds : Nat) {depth : Nat} {entries : List Entry} {streams : Streams} {bits : List Bool}
    {listed : List ByteString} (written : Written words streams bits listed)
    (known : AreEntries words entries)
    (reach : entries.map Entry.word = words.filter fun word => decide (depth ≤ word.length))
    (short : ∀ node ∈ listed, node.length ≤ depth) :
    Written words (visitDepths rounds depth entries streams)
      (bits ++ (levelOrder (PrefixTree.children words) rounds
        (levelAt (PrefixTree.children words) depth [[]])).flatMap (nodeBits words))
      (listed ++ levelOrder (PrefixTree.children words) rounds
        (levelAt (PrefixTree.children words) (depth + 1) [[]])) := by
  induction rounds generalizing depth entries streams bits listed with
  | zero =>
      rw [levelOrder, levelOrder, List.flatMap_nil, List.append_nil, List.append_nil]
      exact written
  | succ rounds ih =>
      have below := reach
      rw [PrefixTree.filter_length_eq sorted] at below
      have nonempty : ∀ node ∈ levelAt (PrefixTree.children words) depth [[]],
          PrefixTree.below words node ≠ [] := by
        intro node member none_
        have found : ∃ word ∈ words, node <+: word := by
          obtain ⟨-, rfl | found⟩ := PrefixTree.mem_levelAt.1 member
          · obtain ⟨word, isWord⟩ := List.exists_mem_of_ne_nil words some_
            exact ⟨word, isWord, List.nil_prefix⟩
          · exact found
        obtain ⟨word, isWord, extends_⟩ := found
        have inside := PrefixTree.mem_below.2 ⟨isWord, extends_⟩
        rw [none_] at inside
        cases inside
      have next : levelAt (PrefixTree.children words) (depth + 1) [[]]
          = (levelAt (PrefixTree.children words) depth [[]]).flatMap
            (PrefixTree.children words) := levelAt_succ _ _ _
      rw [visitDepths]
      by_cases none_ : entries = []
      · rw [if_pos none_]
        have noNodes : levelAt (PrefixTree.children words) depth [[]] = [] := by
          refine List.eq_nil_iff_forall_not_mem.2 fun node member => nonempty node member ?_
          rw [none_] at below
          exact List.flatMap_eq_nil_iff.1 below.symm node member
        have noMore (n : Nat) : levelOrder (PrefixTree.children words) n [] = [] := by
          induction n with
          | zero => rfl
          | succ n ih => exact ih
        rw [next, noNodes, List.flatMap_nil, noMore, List.flatMap_nil, List.append_nil,
          List.append_nil]
        exact written
      · rw [if_neg none_]
        have lengths : ∀ node ∈ levelAt (PrefixTree.children words) depth [[]],
            node.length = depth := fun node member => (PrefixTree.mem_levelAt.1 member).1
        have visited := written.visitLevel sorted none
          ((PrefixTree.pairwise_levelAt sorted depth).imp ne_of_lt) lengths nonempty known below
          (by
            intro node member child isChild inside
            obtain ⟨c, rfl, -⟩ := PrefixTree.mem_children.1 isChild
            have := short _ inside
            rw [List.length_append, List.length_singleton, lengths node member] at this
            omega)
          (fun node _ entry isPrev => by cases isPrev)
        rw [← visitEntries_eq, ← next] at visited
        have visitedAll := @ih (depth + 1)
          (entries.filter fun entry => ¬ entry.word.length < depth + 1) _ _ _ visited
          (fun entry member => known entry (List.mem_filter.1 member).1) (by
            rw [← Function.comp_def (fun word : ByteString => decide (¬ word.length < depth + 1))
              Entry.word, ← List.filter_map, reach, List.filter_filter]
            refine List.filter_congr fun word _ => ?_
            rw [Bool.eq_iff_iff, Bool.and_eq_true, decide_eq_true_eq, decide_eq_true_eq,
              decide_eq_true_eq]
            omega)
          (by
            intro node member
            rcases List.mem_append.1 member with old | new
            · exact (short node old).trans (Nat.le_succ depth)
            · exact (PrefixTree.mem_levelAt.1 new).1.le)
        rw [levelOrder, levelOrder, ← next, ← levelAt_succ, List.flatMap_append]
        rw [List.append_assoc, List.append_assoc] at visitedAll
        exact visitedAll

/-! ## The finished streams -/

theorem rootStreams_written (nonempty : [] ∉ words) :
    Written words (rootStreams words) [true, false] [[]] := by
  have none_ : wordsAmong words [[]] = [] := by
    rw [wordsAmong, List.filter_singleton, decide_eq_false nonempty]
    rfl
  refine ⟨(BitStream.holds_nil.pushBit true).pushBit false, ?_, rfl, ?_, by rw [none_]; rfl⟩
  · rw [List.map_singleton, decide_eq_false nonempty]
    exact BitStream.holds_nil.pushBit false
  · show List.replicate words.length (-1) = _
    rw [none_, eq_comm, List.eq_replicate_iff, List.length_map]
    refine ⟨rfl, fun id_ member => ?_⟩
    obtain ⟨word, -, rfl⟩ := List.mem_map.1 member
    exact if_neg List.not_mem_nil

theorem areEntries_entriesOf : AreEntries words (entriesOf words) := by
  intro entry member
  obtain ⟨⟨word, i⟩, inside, rfl⟩ := List.mem_map.1 member
  exact List.mem_zipIdx_iff_getElem?.1 inside

theorem map_word_entriesOf : (entriesOf words).map Entry.word = words := by
  rw [entriesOf, List.map_map]
  exact List.zipIdx_map_fst 0 words

/-- **What `Build` writes** is the level-order sequence of the prefixes.  Without words the stop
bit of the root is left to the padding. -/
theorem buildStreams_written (sorted : words.Pairwise (· < ·)) (nonempty : [] ∉ words) :
    ∃ bits, Written words (buildStreams words) bits (PrefixTree.nodes words) ∧
      (bits = louds (PrefixTree.children words) (PrefixTree.nodes words) ∨
        bits.length = 2 ∧
          bits ++ [false] = louds (PrefixTree.children words) (PrefixTree.nodes words)) := by
  have root := rootStreams_written nonempty
  by_cases some_ : words = []
  · subst some_
    exact ⟨_, root, .inr ⟨rfl, rfl⟩⟩
  · have reach : (entriesOf words).map Entry.word
        = words.filter fun word => decide (0 ≤ word.length) := by
      rw [map_word_entriesOf, eq_comm, List.filter_eq_self]
      intro word _
      exact decide_eq_true (Nat.zero_le _)
    have written := visitDepths_written sorted some_ (PrefixTree.depth words + 1) root
      areEntries_entriesOf reach (by simp)
    have listed : [[]] ++ levelOrder (PrefixTree.children words) (PrefixTree.depth words + 1)
        (levelAt (PrefixTree.children words) (0 + 1) [[]]) = PrefixTree.nodes words := by
      have deep := PrefixTree.levelAt_depth words
      have twice : [[]] ++ levelOrder (PrefixTree.children words) (PrefixTree.depth words + 1)
          (levelAt (PrefixTree.children words) 1 [[]])
            = levelOrder (PrefixTree.children words) (PrefixTree.depth words + 1 + 1) [[]] := rfl
      have more (n : Nat) (level : List ByteString) :
          levelOrder (PrefixTree.children words) (n + 1) level
            = levelOrder (PrefixTree.children words) n level
              ++ levelAt (PrefixTree.children words) n level := by
        induction n generalizing level with
        | zero => rw [levelOrder, levelOrder, levelOrder, levelAt, List.append_nil, List.nil_append]
        | succ n ih => rw [levelOrder, ih, levelOrder, levelAt, List.append_assoc]
      rw [twice, more, deep, List.append_nil]
      rfl
    rw [listed] at written
    refine ⟨_, written, .inl ?_⟩
    rw [louds, unary_cons, unary, List.flatMap_map]
    rfl

/-- The bytes of the level-order sequence of so many nodes. -/
def loudsBytes (numNodes : Nat) : Nat := BitStream.wordBytes (2 * numNodes + 1)

/-- The finished bit vectors. -/
theorem buildStreams_filled (sorted : words.Pairwise (· < ·)) (nonempty : [] ∉ words) :
    ((buildStreams words).trieStream.fillPadding32.image.length
        = loudsBytes (PrefixTree.nodes words).length ∧
      ∃ padding, bitsOf (buildStreams words).trieStream.fillPadding32.image
        = louds (PrefixTree.children words) (PrefixTree.nodes words)
          ++ List.replicate padding false) ∧
    (buildStreams words).terminalStream.fillPadding32.image.length
        = BitStream.wordBytes (PrefixTree.nodes words).length ∧
      ∃ padding, bitsOf (buildStreams words).terminalStream.fillPadding32.image
        = (PrefixTree.nodes words).map (fun node => decide (node ∈ words))
          ++ List.replicate padding false := by
  obtain ⟨bits, written, isLouds⟩ := buildStreams_written sorted nonempty
  have size := length_louds (PrefixTree.levelOrdered_nodes words)
  obtain ⟨trieLength, trieBits⟩ := written.trie.fillPadding32
  obtain ⟨terminalLength, terminalBits⟩ := written.terminal.fillPadding32
  rw [List.length_map] at terminalLength terminalBits
  refine ⟨?_, terminalLength, _, terminalBits⟩
  rcases isLouds with same | ⟨two, padded⟩
  · rw [same] at trieLength trieBits
    rw [size] at trieLength
    exact ⟨trieLength, _, trieBits⟩
  · have length := congrArg List.length padded
    rw [List.length_append, List.length_singleton, size] at length
    rw [two] at trieLength trieBits length
    refine ⟨?_, 29, ?_⟩
    · rw [trieLength, loudsBytes, ← length]
      rfl
    · rw [trieBits, ← padded, List.append_assoc, List.singleton_append, ← List.replicate_succ]
      rfl

/-! ## The image -/

theorem pairwise_sortWords (wordList : List ByteString) :
    (sortWords wordList).Pairwise (· < ·) :=
  @pairwise_lt_destutter _ _ _ _ id _ (List.pairwise_insertionSort (· ≤ ·) wordList)

theorem mem_sortWords {wordList : List ByteString} {word : ByteString} :
    word ∈ sortWords wordList ↔ word ∈ wordList := by
  rw [sortWords, ← (List.perm_insertionSort (· ≤ ·) wordList).mem_iff]
  refine ⟨fun member => (List.destutter_sublist _ _).subset member, fun member => ?_⟩
  obtain ⟨other, found, same⟩ := @exists_mem_destutter _ _ _ id _ _ member
  obtain rfl : other = word := same
  exact found

/-- The image of the finished streams. -/
def imageOf (trie terminal edges : ByteString) : ByteString :=
  storeUnaligned32 (UInt32.ofNat trie.length)
    ++ (storeUnaligned32 (UInt32.ofNat terminal.length)
      ++ (storeUnaligned32 8 ++ (storeUnaligned32 (UInt32.ofNat edges.length)
        ++ (trie ++ (terminal ++ edges)))))

/-- **When `Build` comes to an image**, and which. -/
theorem build_eq_ok_iff {wordList : List ByteString} {builder : LoudsTrieBuilder} :
    build { wordList } = .ok builder ↔
      let streams := buildStreams (sortWords wordList)
      let trie := streams.trieStream.fillPadding32.image
      let terminal := streams.terminalStream.fillPadding32.image
      (trie.length < 2 ^ 32 ∧ terminal.length < 2 ^ 32 ∧ streams.edgeCharacter.length < 2 ^ 32) ∧
        builder = {
          built := true
          wordList := sortWords wordList
          idList := streams.idList
          image := imageOf trie terminal streams.edgeCharacter } := by
  dsimp only
  rw [build, if_neg Bool.false_ne_true]
  constructor
  · intro done
    obtain ⟨_, first, done⟩ := CachedBitVectorIndex.bind_eq_ok_iff.1 done
    obtain ⟨_, second, done⟩ := CachedBitVectorIndex.bind_eq_ok_iff.1 done
    obtain ⟨_, third, done⟩ := CachedBitVectorIndex.bind_eq_ok_iff.1 done
    obtain ⟨_, fourth, done⟩ := CachedBitVectorIndex.bind_eq_ok_iff.1 done
    obtain ⟨small1, rfl⟩ := BitVectorBasedArrayBuilder.pushInt32_eq_ok_iff.1 first
    obtain ⟨small2, rfl⟩ := BitVectorBasedArrayBuilder.pushInt32_eq_ok_iff.1 second
    obtain ⟨-, rfl⟩ := BitVectorBasedArrayBuilder.pushInt32_eq_ok_iff.1 third
    obtain ⟨small4, rfl⟩ := BitVectorBasedArrayBuilder.pushInt32_eq_ok_iff.1 fourth
    refine ⟨⟨small1, small2, small4⟩, ?_⟩
    rw [← Except.ok.inj done, imageOf]
    simp only [List.nil_append, List.append_assoc]
    rfl
  · rintro ⟨⟨small1, small2, small4⟩, rfl⟩
    refine CachedBitVectorIndex.bind_eq_ok_iff.2
      ⟨_, BitVectorBasedArrayBuilder.pushInt32_eq_ok_iff.2 ⟨small1, rfl⟩, ?_⟩
    refine CachedBitVectorIndex.bind_eq_ok_iff.2
      ⟨_, BitVectorBasedArrayBuilder.pushInt32_eq_ok_iff.2 ⟨small2, rfl⟩, ?_⟩
    refine CachedBitVectorIndex.bind_eq_ok_iff.2
      ⟨_, BitVectorBasedArrayBuilder.pushInt32_eq_ok_iff.2 ⟨by decide, rfl⟩, ?_⟩
    refine CachedBitVectorIndex.bind_eq_ok_iff.2
      ⟨_, BitVectorBasedArrayBuilder.pushInt32_eq_ok_iff.2 ⟨small4, rfl⟩, ?_⟩
    refine congrArg Except.ok ?_
    rw [imageOf]
    simp only [List.nil_append, List.append_assoc]
    rfl

/-- The id of a word of the builder is its place among the words in level order. -/
theorem getId_eq {wordList : List ByteString} {builder : LoudsTrieBuilder}
    (nonempty : [] ∉ wordList) (done : build { wordList } = .ok builder) (word : ByteString) :
    getId builder word = .ok (idAmong
      (wordsAmong (sortWords wordList) (PrefixTree.nodes (sortWords wordList))) word) := by
  obtain ⟨-, rfl⟩ := build_eq_ok_iff.1 done
  obtain ⟨bits, written, -⟩ := buildStreams_written (pairwise_sortWords wordList)
    (fun member => nonempty (mem_sortWords.1 member))
  have sorted := pairwise_sortWords wordList
  generalize sortWords wordList = words at written sorted
  have found : words[words.findIdx fun other => ¬ other < word]? = some word ↔ word ∈ words := by
    refine ⟨List.mem_of_getElem?, fun member => ?_⟩
    obtain ⟨i, inside, here⟩ := List.getElem_of_mem member
    have place : (words.findIdx fun other => ¬ other < word) = i := by
      refine (List.findIdx_eq inside).2 ⟨?_, fun j before => ?_⟩
      · rw [here]
        simp
      · have less := List.pairwise_iff_getElem.1 sorted j i (before.trans inside) inside before
        rw [here] at less
        simp [less]
    rw [place, List.getElem?_eq_getElem inside, here]
  show (if ¬ true = true then _ else if words[words.findIdx fun other => ¬ other < word]? ≠ some word
    then Except.ok (-1) else elementAt (buildStreams words).idList
      (words.findIdx fun other => ¬ other < word)) = _
  rw [if_neg (not_not_intro rfl)]
  by_cases member : word ∈ words
  · rw [if_neg (not_not_intro (found.2 member)), written.idList, elementAt, List.getElem?_map,
      found.2 member, Option.map_some]
  · rw [if_pos (mt found.1 member), idAmong, if_neg]
    intro met
    exact member (of_decide_eq_true (List.mem_filter.1 met).2)

end LoudsTrieBuilder

end Mozkey.Storage
