import Mozkey.Dictionary.TokenLayout
import Mozkey.Lib.Iterator
import Mozkey.Lib.List
import Mozkey.Storage.BitVectorBasedArray

/-!
# Scanning the token array

For reverse lookup the system dictionary reads all tokens of all keys from the
start of the token array to its end.  `TokenScanIterator` does so without
decoding the tokens: it compares the byte at its position with the terminator,
reads the value id and the length of a token, and after the last token of a
block moves to the next block.

The comparison is made before every token, but only the first byte of a block is
known to differ from the terminator.  The byte of flags of a later token equals
the terminator exactly when it is the flag byte of a last token that carries the
top bits of a value id from `0x3f0000` on.  The scan is right exactly on the
blocks without such a token.
-/

namespace Mozkey.Dictionary

open Mozkey.Lib Mozkey.Storage

def kMinTokenArrayBlobSize : Nat := 4

/-! ## The iterator -/

/-- `TokenScanIterator::Result`. -/
structure ScanResult where
  valueId : Int
  index : Nat
  tokensOffset : Nat
  deriving DecidableEq, Repr

/-- The state of `TokenScanIterator`. -/
structure ScanState where
  done : Bool := false
  result : ScanResult := ⟨-1, 0, 0⟩
  offset : Nat := 0
  tokensOffset : Nat := 0
  index : Nat := 0
  deriving DecidableEq, Repr

/-- `TokenScanIterator::NextInternal`. -/
def scanNext (encodedTokens : ByteString) (s : ScanState) : ScanState :=
  let ptr := encodedTokens.drop s.offset
  if byteAt ptr 0 = kTokenTerminationFlag then { s with done := true }
  else
    let read := readTokenForReverseLookup ptr
    let result : ScanResult := ⟨read.2.1, s.index, s.tokensOffset⟩
    if read.1 then { s with result := result, offset := s.offset + read.2.2 }
    else
      let tokensSize := s.offset + read.2.2 - s.tokensOffset
      let tokensSize :=
        if tokensSize < kMinTokenArrayBlobSize then kMinTokenArrayBlobSize else tokensSize
      { s with
        result := result
        tokensOffset := s.tokensOffset + tokensSize
        index := s.index + 1
        offset := s.tokensOffset + tokensSize }

/-- The moves over the bytes at `encodedTokens`. -/
def scanIterator (encodedTokens : ByteString) : Iterator ScanState ScanResult where
  next := scanNext encodedTokens
  done := ScanState.done
  get := ScanState.result

/-- `TokenScanIterator` over a token array.  Its constructor already makes the
first move. -/
def tokenScanIterator (tokenArray : BitVectorBasedArray) : Iterator ScanState ScanResult :=
  scanIterator (tokenArray.get 0).1

/-! ## The token array -/

/-- A block of tokens that the encoder accepts. -/
structure TokenBlock where
  tokens : List TokenInfo
  bytes : ByteString
  nonempty : tokens ≠ []
  range : ∀ info ∈ tokens, InRange info
  accepted : encodeTokens tokens = some bytes

/-- The token array of `BuildTokenArray`: the blocks and the terminator. -/
def buildTokenArray (blocks : List ByteString) : BitVectorBasedArray :=
  BitVectorBasedArray.build 4 1 (blocks ++ [[kTokenTerminationFlag]])

/-- The size of a block in the token array. -/
def TokenBlock.size (block : TokenBlock) : Nat :=
  (BitVectorBasedArray.padElement 4 1 block.bytes).length

/-- What a scan has to show: for each token of each block its value id, the index of
the block and the offset of the block. -/
def visitsFrom (index tokensOffset : Nat) : List TokenBlock → List ScanResult
  | [] => []
  | block :: blocks =>
      block.tokens.map (fun info => ⟨carriedValueId info, index, tokensOffset⟩) ++
        visitsFrom (index + 1) (tokensOffset + block.size) blocks

/-- The last token of the block has the terminator as its byte of flags: it has
a frequent part of speech, no correction, and a value id with all its upper bits
set.  It is not the only token of the block, as the encoder would refuse that. -/
def EndsLikeTerminator (tokens : List TokenInfo) : Prop :=
  1 < tokens.length ∧ ∃ info, tokens.getLast? = some info ∧
    isCrammed info = true ∧ 0x3f0000 ≤ info.idInValueTrie

/-- The scan of the blocks: it visits every token of every block once and in
order, it is done at the terminator after the last block, and it reads as many
bytes as the decoder does. -/
def ScanAgrees (blocks : List TokenBlock) : Prop :=
  (∃ final, (tokenScanIterator (buildTokenArray (blocks.map TokenBlock.bytes))).Runs {}
      (visitsFrom 0 0 blocks) final ∧
    final.offset = (blocks.map TokenBlock.size).sum) ∧
  ∀ ptr info, (readTokenForReverseLookup ptr).2.2 = (decodeToken ptr info).2.2

/-! ## The terminator among the bytes of flags -/

/-- Which bytes of flags equal the terminator. -/
theorem storedFlags_eq_termination {last : Bool} {info : TokenInfo} (range : InRange info)
    (small : isCrammed info = true → valueIdAsUInt32 info ≤ kValueTrieIdMax) :
    storedFlags last info = kTokenTerminationFlag ↔
      last = true ∧ isCrammed info = true ∧ 0x3f0000 ≤ info.idInValueTrie := by
  cases crammed : isCrammed info with
  | false =>
      have plain : storedFlags last info = flagsOf last info := by
        simp [storedFlags, upperBits, crammed]
      rw [plain]
      simp only [Bool.false_eq_true, false_and, and_false, iff_false]
      exact flagsOf_ne_termination last info
  | true =>
      have small := small crammed
      have exact_ := valueIdAsUInt32_eq range small
      unfold kValueTrieIdMax at small
      have bits : valueIdAsUInt32 info / 2 ^ 16 < 64 := by omega
      have byte : storedFlags last info = kTokenTerminationFlag ↔
          last = true ∧ valueIdAsUInt32 info / 2 ^ 16 = 0x3f := by
        unfold storedFlags upperBits
        rw [flagsOf_of_crammed last info crammed, if_pos crammed, Nat.shiftRight_eq_div_pow]
        exact (by decide : ∀ n : Fin 64, ∀ last : Bool,
          ((if last then kLastTokenFlag else 0) ||| kCrammedIDFlag) |||
            (UInt8.ofNat n &&& kUpperCrammedIDMask) = kTokenTerminationFlag ↔
              last = true ∧ (n : Nat) = 0x3f) ⟨_, bits⟩ last
      rw [byte]
      simp only [true_and]
      refine and_congr_right fun _ => ?_
      omega

/-- The tokens of an accepted block, one by one. -/
theorem encodeTokens_eq_some {tokens : List TokenInfo} {bytes : ByteString}
    (accepted : encodeTokens tokens = some bytes) :
    ∃ parts : List ByteString, bytes = parts.flatten ∧ parts.length = tokens.length ∧
      (∀ i part, parts[i]? = some part → encodeToken tokens i = some part) ∧
      byteAt bytes 0 ≠ kTokenTerminationFlag := by
  simp only [encodeTokens, bind, Option.bind_eq_some_iff, Option.guard_eq_some', pure,
    Option.some_inj, mapM_eq_some_iff] at accepted
  obtain ⟨parts, encoded, _, checked, rfl⟩ := accepted
  refine ⟨parts, rfl, ?_, ?_, checked⟩
  · simpa using encoded.length_eq.symm
  · intro i part found
    have bound : i < parts.length := (List.getElem?_eq_some_iff.1 found).1
    have := List.Forall₂.get encoded (i := i) (by simpa [← encoded.length_eq] using bound) bound
    simp only [List.get_eq_getElem, List.getElem_range] at this
    rw [this, ← List.getElem?_eq_getElem bound, found]

/-- The token at an index of a block, with what its bytes are. -/
theorem encodedToken_spec {tokens : List TokenInfo} {i : Nat} {part : ByteString}
    (encoded : encodeToken tokens i = some part) (range : ∀ info ∈ tokens, InRange info)
    {ptr rest : ByteString} (at_ : ptr = part ++ rest) :
    ∃ info, tokens[i]? = some info ∧
      byteAt ptr 0 = storedFlags (i + 1 = tokens.length) info ∧
      (byteAt ptr 0 = kTokenTerminationFlag ↔
        i + 1 = tokens.length ∧ isCrammed info = true ∧ 0x3f0000 ≤ info.idInValueTrie) ∧
      readTokenForReverseLookup ptr =
        (!decide (i + 1 = tokens.length), carriedValueId info, part.length) := by
  obtain ⟨info, pos, cost, value, found, -, -, -, -, -, valueWritten, bytes⟩ :=
    encodeToken_eq_some encoded
  have inRange := range info (List.mem_of_getElem? found)
  have first : byteAt ptr 0 = storedFlags (i + 1 = tokens.length) info := by
    rw [at_, bytes]
    rfl
  have small : isCrammed info = true → valueIdAsUInt32 info ≤ kValueTrieIdMax := by
    intro crammed
    have normal : info.valueType = .defaultValue := by
      simp only [isCrammed, Bool.and_eq_true, decide_eq_true_eq] at crammed
      exact crammed.2
    exact valueId_le normal valueWritten
  refine ⟨info, found, first, ?_, ?_⟩
  · rw [first, storedFlags_eq_termination inRange small, decide_eq_true_eq]
  · rw [at_]
    exact readTokenForReverseLookup_encodeToken encoded found inRange

theorem encodeToken_ne_nil {tokens : List TokenInfo} {i : Nat} {part : ByteString}
    (encoded : encodeToken tokens i = some part) : part ≠ [] := by
  obtain ⟨info, pos, cost, value, -, -, -, -, -, -, -, rfl⟩ := encodeToken_eq_some encoded
  exact List.cons_ne_nil _ _

section Scan

variable {data : ByteString} {s : ScanState}

theorem scanNext_of_termination (ended : byteAt (data.drop s.offset) 0 = kTokenTerminationFlag) :
    scanNext data s = { s with done := true } := by
  unfold scanNext
  rw [if_pos ended]

/-- A token that is not the last one moves the scan behind the token. -/
theorem scanNext_of_more {valueId : Int} {size : Nat}
    (more : byteAt (data.drop s.offset) 0 ≠ kTokenTerminationFlag)
    (read : readTokenForReverseLookup (data.drop s.offset) = (true, valueId, size)) :
    scanNext data s =
      { s with result := ⟨valueId, s.index, s.tokensOffset⟩, offset := s.offset + size } := by
  unfold scanNext
  rw [if_neg more, read]
  rfl

/-- The last token moves the scan to the next block. -/
theorem scanNext_of_last {valueId : Int} {size : Nat}
    (more : byteAt (data.drop s.offset) 0 ≠ kTokenTerminationFlag)
    (read : readTokenForReverseLookup (data.drop s.offset) = (false, valueId, size)) :
    scanNext data s =
      { s with
        result := ⟨valueId, s.index, s.tokensOffset⟩
        tokensOffset := s.tokensOffset + max 4 (s.offset + size - s.tokensOffset)
        index := s.index + 1
        offset := s.tokensOffset + max 4 (s.offset + size - s.tokensOffset) } := by
  have size_eq : (if s.offset + size - s.tokensOffset < kMinTokenArrayBlobSize
      then kMinTokenArrayBlobSize else s.offset + size - s.tokensOffset) =
        max 4 (s.offset + size - s.tokensOffset) := by
    unfold kMinTokenArrayBlobSize
    split <;> omega
  unfold scanNext
  rw [if_neg more, read]
  simp only [Bool.false_eq_true, if_false, size_eq]

end Scan

/-! ## Scanning one block -/

/-- The part at an index of a sequence of parts, and what stands around it. -/
theorem drop_parts {data rest : ByteString} {parts : List ByteString} {offset i : Nat}
    {part : ByteString} (stored : data.drop offset = parts.flatten ++ rest)
    (found : parts[i]? = some part) :
    data.drop (offset + (parts.take i).flatten.length) =
      part ++ ((parts.drop (i + 1)).flatten ++ rest) := by
  have split : parts = parts.take i ++ part :: parts.drop (i + 1) := by
    obtain ⟨bound, rfl⟩ := List.getElem?_eq_some_iff.1 found
    rw [List.getElem_cons_drop, List.take_append_drop]
  rw [← List.drop_drop, stored]
  conv_lhs => rw [split, List.flatten_append, List.flatten_cons]
  rw [← split, List.append_assoc, List.drop_left, List.append_assoc]

section Block

variable {data rest : ByteString} {block : TokenBlock} {s : ScanState}
  (shows : s.done = false) (start : s.tokensOffset = s.offset)
  (stored : data.drop s.offset = block.bytes ++ rest)
include shows start stored

/-- Before its last token a block is scanned token by token. -/
theorem scan_inside {parts : List ByteString} (bytes : block.bytes = parts.flatten)
    (length : parts.length = block.tokens.length)
    (encoded : ∀ i part, parts[i]? = some part → encodeToken block.tokens i = some part) :
    ∀ i, i < block.tokens.length →
      ∃ t, (scanIterator data).Yields s ((block.tokens.take i).map
          (fun info => ⟨carriedValueId info, s.index, s.offset⟩)) t ∧
        t.done = false ∧ t.offset = s.offset + (parts.take i).flatten.length ∧
        t.tokensOffset = s.offset ∧ t.index = s.index
  | 0, _ => ⟨s, rfl, shows, by simp, start, rfl⟩
  | i + 1, bound => by
      obtain ⟨t, yields, open_, offset, tokensOffset, index⟩ :=
        scan_inside bytes length encoded i (by omega)
      obtain ⟨part, found⟩ : ∃ part, parts[i]? = some part :=
        ⟨_, List.getElem?_eq_getElem (by omega)⟩
      have here := drop_parts (bytes ▸ stored) found
      rw [← offset] at here
      obtain ⟨info, token, -, ends, read⟩ :=
        encodedToken_spec (encoded i part found) block.range here
      have more : byteAt (data.drop t.offset) 0 ≠ kTokenTerminationFlag := by
        intro ended
        have := (ends.1 ended).1
        omega
      rw [decide_eq_false (by omega), Bool.not_false] at read
      have next := scanNext_of_more more read
      refine ⟨scanNext data t, ?_, ?_⟩
      · rw [List.take_add_one, token, List.map_append]
        refine Iterator.yields_append.2 ⟨t, yields, Iterator.yields_singleton.2 ⟨rfl, ?_, ?_⟩⟩
        · rw [next]
          exact open_
        · rw [next]
          show (⟨_, t.index, t.tokensOffset⟩ : ScanResult) = _
          rw [index, tokensOffset]
      · rw [next, List.take_add_one, found, List.flatten_append, List.length_append]
        refine ⟨open_, ?_, tokensOffset, index⟩
        show t.offset + _ = _
        rw [offset, Nat.add_assoc]
        simp

/-- A block is scanned to its end when its last byte of flags is no terminator,
and else the scan is done too early, before the last token. -/
theorem scan_block : ∃ t last,
    (scanIterator data).Yields s (block.tokens.dropLast.map
      (fun info => ⟨carriedValueId info, s.index, s.offset⟩)) t ∧
    block.tokens.dropLast ++ [last] = block.tokens ∧
    (EndsLikeTerminator block.tokens → (scanNext data t).done = true) ∧
    (¬ EndsLikeTerminator block.tokens →
      (scanIterator data).Yields t [⟨carriedValueId last, s.index, s.offset⟩]
        { result := ⟨carriedValueId last, s.index, s.offset⟩
          offset := s.offset + block.size
          tokensOffset := s.offset + block.size
          index := s.index + 1 }) := by
  obtain ⟨parts, bytes, length, encoded, checked⟩ := encodeTokens_eq_some block.accepted
  have positive := List.length_pos_of_ne_nil block.nonempty
  obtain ⟨t, yields, open_, offset, tokensOffset, index⟩ :=
    scan_inside shows start stored bytes length encoded (block.tokens.length - 1) (by omega)
  obtain ⟨part, found⟩ : ∃ part, parts[block.tokens.length - 1]? = some part :=
    ⟨_, List.getElem?_eq_getElem (by omega)⟩
  have here := drop_parts (bytes ▸ stored) found
  rw [← offset] at here
  obtain ⟨info, token, -, ends, read⟩ := encodedToken_spec (encoded _ part found) block.range here
  rw [decide_eq_true (by omega), Bool.not_true] at read
  have last : block.tokens.getLast? = some info := by
    rw [List.getLast?_eq_getElem?, token]
  have whole : block.bytes = (parts.take (block.tokens.length - 1)).flatten ++ part := by
    have split := List.take_add_one (l := parts) (i := block.tokens.length - 1)
    rw [found, List.take_of_length_le (by omega)] at split
    rw [bytes]
    conv_lhs => rw [split]
    simp
  have like : byteAt (data.drop t.offset) 0 = kTokenTerminationFlag ↔
      EndsLikeTerminator block.tokens := by
    constructor
    · intro ended
      obtain ⟨-, crammed, upper⟩ := ends.1 ended
      refine ⟨?_, info, last, crammed, upper⟩
      by_contra single
      -- The first byte of flags of the block was checked by the encoder.
      have only : block.tokens.length - 1 = 0 := by omega
      rw [only] at whole offset
      rw [here, byteAt_append_zero (encodeToken_ne_nil (encoded _ part found))] at ended
      exact checked (by rw [whole]; exact ended)
    · rw [ends]
      rintro ⟨-, info', last', crammed, upper⟩
      obtain rfl : info = info' := Option.some_inj.1 (last.symm.trans last')
      exact ⟨by omega, crammed, upper⟩
  refine ⟨t, info, ?_, ?_, ?_, ?_⟩
  · rw [List.dropLast_eq_take]
    exact yields
  · exact List.dropLast_append_getLast? info last
  · intro bad
    rw [scanNext_of_termination (like.2 bad)]
  · intro good
    have next := scanNext_of_last (mt like.1 good) read
    refine Iterator.yields_singleton.2 ⟨?_, rfl, rfl⟩
    have size : t.tokensOffset + max 4 (t.offset + part.length - t.tokensOffset) =
        s.offset + block.size := by
      rw [TokenBlock.size, BitVectorBasedArray.length_padElement_one, whole, List.length_append,
        offset, tokensOffset]
      omega
    refine next.trans ?_
    rw [size, index, tokensOffset, open_]

end Block

/-! ## Scanning the whole array -/

theorem scan_blocks {data : ByteString} (blocks : List TokenBlock) :
    ∀ {s : ScanState}, s.done = false → s.tokensOffset = s.offset →
      data.drop s.offset = (blocks.map TokenBlock.bytes ++ [[kTokenTerminationFlag]]).flatMap
        (BitVectorBasedArray.padElement 4 1) →
      ((∃ final, (scanIterator data).Runs s (visitsFrom s.index s.offset blocks) final ∧
          final.offset = s.offset + (blocks.map TokenBlock.size).sum) ↔
        ∀ block ∈ blocks, ¬ EndsLikeTerminator block.tokens) := by
  induction blocks with
  | nil =>
      intro s shows start stored
      have next : scanNext data s = { s with done := true } :=
        scanNext_of_termination (by rw [stored]; rfl)
      exact iff_of_true ⟨_, ⟨s, rfl, next, rfl⟩, rfl⟩ (by simp)
  | cons block blocks ih =>
      intro s shows start stored
      rw [List.map_cons, List.cons_append, List.flatMap_cons] at stored
      obtain ⟨t, last, inside, whole, bad, good⟩ := scan_block shows start
        (stored.trans (List.append_assoc _ _ _))
      have visits : visitsFrom s.index s.offset (block :: blocks) =
          block.tokens.dropLast.map (fun info => ⟨carriedValueId info, s.index, s.offset⟩) ++
            ([⟨carriedValueId last, s.index, s.offset⟩] ++
              visitsFrom (s.index + 1) (s.offset + block.size) blocks) := by
        rw [visitsFrom, ← List.append_assoc]
        congr 1
        conv_lhs => rw [← whole]
        simp
      rw [visits]
      simp only [Iterator.runs_append inside, List.forall_mem_cons]
      by_cases like : EndsLikeTerminator block.tokens
      · refine iff_of_false ?_ (fun all => all.1 like)
        rintro ⟨final, runs, -⟩
        exact Iterator.not_runs_cons_of_done (bad like) runs
      · simp only [Iterator.runs_append (good like), like, not_false_iff, true_and]
        have next := ih (s := ⟨false, ⟨carriedValueId last, s.index, s.offset⟩,
          s.offset + block.size, s.offset + block.size, s.index + 1⟩) rfl rfl ?_
        · rw [← next, List.map_cons, List.sum_cons, ← Nat.add_assoc]
        · show data.drop (s.offset + block.size) = _
          rw [← List.drop_drop, stored, TokenBlock.size, List.drop_left]

/-- **The scan agrees with the blocks exactly when no block ends like the
terminator.** -/
theorem scanAgrees_iff (blocks : List TokenBlock) :
    ScanAgrees blocks ↔ ∀ block ∈ blocks, ¬ EndsLikeTerminator block.tokens := by
  have data : ((buildTokenArray (blocks.map TokenBlock.bytes)).get 0).1 =
      (blocks.map TokenBlock.bytes ++ [[kTokenTerminationFlag]]).flatMap
        (BitVectorBasedArray.padElement 4 1) :=
    BitVectorBasedArray.get_build_zero 4 1 (by decide) (by simp)
  have scan := scan_blocks blocks (s := {}) rfl rfl data
  rw [← scan, ScanAgrees, tokenScanIterator]
  simp only [Nat.zero_add]
  constructor
  · rintro ⟨agrees, -⟩
    exact agrees
  · intro agrees
    exact ⟨agrees, fun ptr info => by rw [readTokenForReverseLookup_eq_decodeToken ptr info]⟩

/-- A block of two tokens whose last token is stored with the value id
`0x3f0000`. -/
def crammedBlock : TokenBlock where
  tokens :=
    [{ token := ⟨[97], [98], 0x1234, 1, 1, 0⟩, idInValueTrie := 7 },
     { token := ⟨[97], [99], 0x1234, 2, 2, 0⟩, idInValueTrie := 0x3f0000
       idInFrequentPosMap := 0, posType := .frequentPos }]
  bytes := [0x08, 1, 0, 0x12, 0x34, 7, 0, 0, 0xff, 0, 0x12, 0x34, 0, 0]
  nonempty := by decide
  range := by decide
  accepted := by decide

/-- The encoder accepts the block, and the scan is done before its second
token. -/
theorem crammedBlock_not_scanned : ¬ ScanAgrees [crammedBlock] := by
  rintro ⟨⟨final, ⟨last, ⟨-, -, open_, -⟩, -⟩, -⟩, -⟩
  revert open_
  decide

end Mozkey.Dictionary
