import Publiq.HeaderSync

/-! What a node answers to requests for headers and blocks: the clamps and the loops of the
two `process_request` of `sessions.cpp`, in words that wrap, and the ranges that come out. -/
namespace Publiq
open Message Checked

/-- The clamps of `session_action_header::process_request`: `from` and `to`. -/
def headerWords (length blocksFrom blocksTo : UInt64) : UInt64 × UInt64 :=
  let first := length - 1
  let first := if first < blocksFrom then first else blocksFrom
  let last := if blocksTo > first then first else blocksTo
  let most := UInt64.ofNat headerTrLength
  (first, if first > most ∧ last < first - most then first - most else last)

/-- The clamps of `session_action_block::process_request`. -/
def blockWords (length blocksFrom blocksTo : UInt64) : UInt64 × UInt64 :=
  let number := length - 1
  let first := if number < blocksFrom then number else blocksFrom
  let last := if blocksTo < first then first else blocksTo
  let most := UInt64.ofNat blockTrLength
  let last := if last > first + most then first + most else last
  (first, if last > number then number else last)

/-- `for (auto index = from + 1; index > to; --index)`, which reads at `index - 1`, for at
most so many rounds. -/
def downLoop (last : UInt64) : ℕ → UInt64 → Option (List UInt64)
  | 0, _ => none
  | rounds + 1, index =>
      if index > last then (downLoop last rounds (index - 1)).map ((index - 1) :: ·) else some []

/-- `for (auto i = from; i <= to; ++i)`, for at most so many rounds. -/
def upLoop (last : UInt64) : ℕ → UInt64 → Option (List UInt64)
  | 0, _ => none
  | rounds + 1, index =>
      if index ≤ last then (upLoop last rounds (index + 1)).map (index :: ·) else some []

theorem downLoop_spec {last index : UInt64} {rounds : ℕ} (above : last ≤ index)
    (enough : index.toNat - last.toNat < rounds) :
    ∃ numbers, downLoop last rounds index = some numbers ∧
      numbers.map UInt64.toNat =
        (List.range' last.toNat (index.toNat - last.toNat)).reverse := by
  induction rounds generalizing index with
  | zero => omega
  | succ rounds ih =>
      rw [UInt64.le_iff_toNat_le] at above
      unfold downLoop
      by_cases hmore : index > last
      · have hlt := UInt64.lt_iff_toNat_lt.mp hmore
        have hbefore : (index - 1).toNat = index.toNat - 1 := by
          apply UInt64.toNat_sub_of_le
          rw [UInt64.le_iff_toNat_le]
          change 1 ≤ index.toNat
          omega
        have hstill : last ≤ index - 1 := UInt64.le_iff_toNat_le.mpr (by omega)
        have hrounds : (index - 1).toNat - last.toNat < rounds := by omega
        obtain ⟨numbers, hnumbers, hmap⟩ := ih hstill hrounds
        refine ⟨(index - 1) :: numbers, by rw [if_pos hmore, hnumbers]; rfl, ?_⟩
        have hcount : index.toNat - last.toNat = index.toNat - 1 - last.toNat + 1 := by omega
        rw [List.map_cons, hmap, hbefore, hcount, List.range'_1_concat, List.reverse_append]
        simp only [List.reverse_cons, List.reverse_nil, List.nil_append, List.singleton_append,
          List.cons.injEq, and_true]
        omega
      · have hle := UInt64.le_iff_toNat_le.mp (UInt64.not_lt.mp hmore)
        refine ⟨[], if_neg hmore, ?_⟩
        rw [Nat.sub_eq_zero_of_le hle]
        rfl

theorem upLoop_spec {last index : UInt64} {rounds : ℕ} (fits : last.toNat + 1 < 2 ^ 64)
    (enough : last.toNat + 1 - index.toNat < rounds) :
    ∃ numbers, upLoop last rounds index = some numbers ∧
      numbers.map UInt64.toNat = numbersUpTo index.toNat last.toNat := by
  unfold numbersUpTo
  induction rounds generalizing index with
  | zero => omega
  | succ rounds ih =>
      unfold upLoop
      by_cases hmore : index ≤ last
      · have hle := UInt64.le_iff_toNat_le.mp hmore
        have hafter : (index + 1).toNat = index.toNat + 1 := by
          rw [UInt64.toNat_add]
          apply Nat.mod_eq_of_lt
          change index.toNat + 1 < 2 ^ 64
          omega
        have hrounds : last.toNat + 1 - (index + 1).toNat < rounds := by omega
        obtain ⟨numbers, hnumbers, hmap⟩ := ih hrounds
        refine ⟨index :: numbers, by rw [if_pos hmore, hnumbers]; rfl, ?_⟩
        have hcount : last.toNat + 1 - index.toNat = last.toNat + 1 - (index.toNat + 1) + 1 := by
          omega
        rw [List.map_cons, hmap, hafter, hcount, List.range'_succ]
      · have hlt := UInt64.lt_iff_toNat_lt.mp (UInt64.not_le.mp hmore)
        refine ⟨[], if_neg hmore, ?_⟩
        rw [Nat.sub_eq_zero_of_le hlt]
        rfl

section
variable {length : ℕ}

theorem lastNumber_toNat (positive : 0 < length) (fits : length < 2 ^ 64) :
    (UInt64.ofNat length - 1).toNat = length - 1 := by
  have hlength : (UInt64.ofNat length).toNat = length := UInt64.toNat_ofNat_of_lt' fits
  rw [UInt64.toNat_sub_of_le, hlength]
  · rfl
  · rw [UInt64.le_iff_toNat_le, hlength]
    exact positive

theorem minWord_toNat (a b : UInt64) : (if a < b then a else b).toNat = min a.toNat b.toNat := by
  split_ifs with h
  · exact (Nat.min_eq_left (UInt64.lt_iff_toNat_lt.mp h).le).symm
  · exact (Nat.min_eq_right (UInt64.le_iff_toNat_le.mp (UInt64.not_lt.mp h))).symm

theorem minWord_toNat' (a b : UInt64) : (if a > b then b else a).toNat = min a.toNat b.toNat := by
  rw [Nat.min_comm]
  exact minWord_toNat b a

theorem maxWord_toNat (a b : UInt64) : (if a < b then b else a).toNat = max a.toNat b.toNat := by
  split_ifs with h
  · exact (Nat.max_eq_right (UInt64.lt_iff_toNat_lt.mp h).le).symm
  · exact (Nat.max_eq_left (UInt64.le_iff_toNat_le.mp (UInt64.not_lt.mp h))).symm

theorem headerWords_toNat (blocksFrom blocksTo : UInt64) (positive : 0 < length)
    (fits : length < 2 ^ 64) :
    (headerWords (UInt64.ofNat length) blocksFrom blocksTo).map UInt64.toNat UInt64.toNat =
      headerRange length blocksFrom.toNat blocksTo.toNat := by
  have hmost : (UInt64.ofNat headerTrLength).toNat = headerTrLength := rfl
  unfold headerWords headerRange
  dsimp only [Prod.map_apply]
  have hfirst := minWord_toNat (UInt64.ofNat length - 1) blocksFrom
  rw [lastNumber_toNat positive fits] at hfirst
  generalize (if UInt64.ofNat length - 1 < blocksFrom then UInt64.ofNat length - 1
    else blocksFrom) = first at hfirst ⊢
  have hlast := minWord_toNat' blocksTo first
  generalize (if blocksTo > first then first else blocksTo) = last at hlast ⊢
  rw [hfirst] at hlast
  rw [hfirst, ← hlast]
  apply congrArg (Prod.mk _)
  by_cases hlarge : first > UInt64.ofNat headerTrLength
  · have hmore := UInt64.lt_iff_toNat_lt.mp hlarge
    have hless : (first - UInt64.ofNat headerTrLength).toNat = first.toNat - headerTrLength :=
      UInt64.toNat_sub_of_le _ _ (UInt64.le_of_lt hlarge)
    rw [apply_ite UInt64.toNat, hless]
    simp only [hlarge, true_and, UInt64.lt_iff_toNat_lt, hless]
    rw [← hfirst]
    simp only [hmost] at hmore
    simp only [hmore, true_and]
  · have hfew := UInt64.le_iff_toNat_le.mp (UInt64.not_lt.mp hlarge)
    rw [if_neg fun h => hlarge h.1, if_neg]
    rw [← hfirst]
    exact fun h => absurd h.1 (Nat.not_lt.mpr hfew)

theorem blockWords_toNat (blocksFrom blocksTo : UInt64) (positive : 0 < length)
    (fits : length + blockTrLength ≤ 2 ^ 64) :
    (blockWords (UInt64.ofNat length) blocksFrom blocksTo).map UInt64.toNat UInt64.toNat =
      blockRange length blocksFrom.toNat blocksTo.toNat := by
  have hmost : (UInt64.ofNat blockTrLength).toNat = blockTrLength := rfl
  have hbound : blockTrLength = 9 := rfl
  have hnumber := lastNumber_toNat positive (by omega)
  unfold blockWords blockRange
  dsimp only [Prod.map_apply]
  generalize UInt64.ofNat length - 1 = number at hnumber ⊢
  have hfirst := minWord_toNat number blocksFrom
  generalize (if number < blocksFrom then number else blocksFrom) = first at hfirst ⊢
  have hsum : (first + UInt64.ofNat blockTrLength).toNat = first.toNat + blockTrLength := by
    rw [UInt64.toNat_add, hmost]
    apply Nat.mod_eq_of_lt
    omega
  rw [minWord_toNat', minWord_toNat', maxWord_toNat, hsum, hfirst, hnumber]

end

theorem headerRange_spec {length blocksFrom blocksTo first last : ℕ} (positive : 0 < length)
    (h : headerRange length blocksFrom blocksTo = (first, last)) :
    first = min (length - 1) blocksFrom ∧ first < length ∧ last ≤ first ∧
      first - last ≤ headerTrLength := by
  unfold headerRange at h
  have hbound : headerTrLength = 49 := rfl
  obtain ⟨rfl, rfl⟩ := Prod.mk.inj h
  split_ifs <;> omega

theorem blockRange_spec {length blocksFrom blocksTo first last : ℕ} (positive : 0 < length)
    (h : blockRange length blocksFrom blocksTo = (first, last)) :
    first = min (length - 1) blocksFrom ∧ first ≤ last ∧ last < length ∧
      last - first ≤ blockTrLength := by
  unfold blockRange at h
  obtain ⟨rfl, rfl⟩ := Prod.mk.inj h
  omega

section
variable [Externals] {chain : Blockchain} {blocksFrom blocksTo : UInt64} {rounds : ℕ}

/-- `session_action_header::process_request` over the words of the request. -/
def serveHeaders (rounds : ℕ) (chain : Blockchain) (blocksFrom blocksTo : UInt64) :
    Option (Checked (List BlockHeaderExtended)) :=
  let (first, last) := headerWords (UInt64.ofNat chain.length) blocksFrom blocksTo
  (downLoop last rounds (first + 1)).map fun numbers =>
    numbers.mapM fun number => chain.headerExAt number.toNat

/-- `session_action_block::process_request` over the words of the request. -/
def serveBlocks (rounds : ℕ) (chain : Blockchain) (blocksFrom blocksTo : UInt64) :
    Option (Checked (List SignedBlock)) :=
  let (first, last) := blockWords (UInt64.ofNat chain.length) blocksFrom blocksTo
  (upLoop last rounds first).map fun numbers => numbers.mapM fun number => chain.blockAt number.toNat

theorem serveHeaders_eq (fits : chain.length < 2 ^ 64) (enough : headerTrLength + 1 < rounds) :
    serveHeaders rounds chain blocksFrom blocksTo =
      some (processHeaderRequest chain blocksFrom.toNat blocksTo.toNat) := by
  have hwords := headerWords_toNat blocksFrom blocksTo chain.length_pos fits
  unfold serveHeaders processHeaderRequest
  generalize headerWords (UInt64.ofNat chain.length) blocksFrom blocksTo = words at hwords ⊢
  obtain ⟨first, last⟩ := words
  have hrange := hwords.symm
  obtain ⟨_, hinside, hle, hshort⟩ := headerRange_spec chain.length_pos hrange
  have hnext : (first + 1).toNat = first.toNat + 1 := by
    rw [UInt64.toNat_add]
    apply Nat.mod_eq_of_lt
    change first.toNat + 1 < 2 ^ 64
    omega
  have habove : last ≤ first + 1 := UInt64.le_iff_toNat_le.mpr (by omega)
  have hrounds : (first + 1).toNat - last.toNat < rounds := by omega
  obtain ⟨numbers, hnumbers, hmap⟩ := downLoop_spec habove hrounds
  rw [hrange]
  dsimp only [Prod.map_apply]
  rw [hnumbers, numbersUpTo, ← hnext, ← hmap, List.mapM_map]
  rfl

omit [Externals] in
theorem serveBlocks_eq (fits : chain.length + blockTrLength ≤ 2 ^ 64)
    (enough : blockTrLength + 1 < rounds) :
    serveBlocks rounds chain blocksFrom blocksTo =
      some (processBlockRequest chain blocksFrom.toNat blocksTo.toNat) := by
  have hbound : blockTrLength = 9 := rfl
  have hwords := blockWords_toNat blocksFrom blocksTo chain.length_pos fits
  unfold serveBlocks processBlockRequest
  generalize blockWords (UInt64.ofNat chain.length) blocksFrom blocksTo = words at hwords ⊢
  obtain ⟨first, last⟩ := words
  have hrange := hwords.symm
  obtain ⟨_, hle, hinside, hshort⟩ := blockRange_spec chain.length_pos hrange
  have hlast : last.toNat + 1 < 2 ^ 64 := by omega
  have hrounds : last.toNat + 1 - first.toNat < rounds := by omega
  obtain ⟨numbers, hnumbers, hmap⟩ := upLoop_spec hlast hrounds
  rw [hrange]
  dsimp only [Prod.map_apply]
  rw [hnumbers, ← hmap, List.mapM_map]
  rfl

/-- Headers with descending numbers from one on, of blocks of the chain and with their hashes. -/
structure HeadersServed (chain : Blockchain) (first : ℕ) (headers : List BlockHeaderExtended) :
    Prop where
  nonempty : 1 ≤ headers.length
  short : headers.length ≤ headerTrLength + 1
  descending : ∀ i header, headers[i]? = some header → i ≤ first ∧
    ∃ signedBlock, chain.blocks[first - i]? = some signedBlock ∧ header = signedBlock.headerEx

/-- Blocks of the chain with ascending numbers from one on. -/
structure BlocksServed (chain : Blockchain) (first : ℕ) (blocks : List SignedBlock) : Prop where
  nonempty : 1 ≤ blocks.length
  short : blocks.length ≤ blockTrLength + 1
  ascending : ∀ i signedBlock, blocks[i]? = some signedBlock →
    chain.blocks[first + i]? = some signedBlock

theorem processHeaderRequest_served (linked : chain.Linked) (blocksFrom blocksTo : ℕ) :
    ∃ headers, processHeaderRequest chain blocksFrom blocksTo = .ok headers ∧
      HeadersServed chain (min (chain.length - 1) blocksFrom) headers := by
  unfold processHeaderRequest
  obtain ⟨⟨first, last⟩, hrange⟩ : ∃ range,
      headerRange chain.length blocksFrom blocksTo = range := ⟨_, rfl⟩
  obtain ⟨hfirst, hinside, hle, hshort⟩ := headerRange_spec chain.length_pos hrange
  rw [hrange, ← hfirst]
  dsimp only
  let headerOf (number : ℕ) : BlockHeaderExtended :=
    (chain.blocks[number]?.getD chain.lastBlock).headerEx
  have hheader : ∀ number ∈ (numbersUpTo last first).reverse,
      chain.headerExAt number = .ok (headerOf number) := by
    intro number hnumber
    rw [List.mem_reverse, numbersUpTo, List.mem_range'_1] at hnumber
    have hlt : number < chain.blocks.length := by
      have hlength : chain.length = chain.blocks.length := rfl
      omega
    have hat := List.getElem?_eq_getElem hlt
    rw [linked.headerExAt hat]
    simp only [headerOf, hat, Option.getD_some]
  have hcount : (numbersUpTo last first).length = first + 1 - last := by
    rw [numbersUpTo, List.length_range']
  refine ⟨_, mapM_of_ok hheader, ?_, ?_, ?_⟩
  · rw [List.length_map, List.length_reverse, hcount]
    omega
  · rw [List.length_map, List.length_reverse, hcount]
    omega
  · intro i header hi
    obtain ⟨hlt, hget⟩ := List.getElem?_eq_some_iff.mp hi
    rw [List.length_map, List.length_reverse, hcount] at hlt
    have hplace : (numbersUpTo last first).reverse[i]? = some (first - i) := by
      rw [List.getElem?_reverse (by omega), hcount, numbersUpTo,
        List.getElem?_range' (by omega)]
      congr 1
      omega
    rw [List.getElem?_map, hplace] at hi
    have hblock : first - i < chain.blocks.length := by
      have hlength : chain.length = chain.blocks.length := rfl
      omega
    refine ⟨by omega, chain.blocks[first - i], List.getElem?_eq_getElem hblock, ?_⟩
    have hheader := Option.some.inj hi
    rw [← hheader]
    simp only [headerOf, List.getElem?_eq_getElem hblock, Option.getD_some]

omit [Externals] in
theorem processBlockRequest_served (chain : Blockchain) (blocksFrom blocksTo : ℕ) :
    ∃ blocks, processBlockRequest chain blocksFrom blocksTo = .ok blocks ∧
      BlocksServed chain (min (chain.length - 1) blocksFrom) blocks := by
  unfold processBlockRequest
  obtain ⟨⟨first, last⟩, hrange⟩ : ∃ range,
      blockRange chain.length blocksFrom blocksTo = range := ⟨_, rfl⟩
  obtain ⟨hfirst, hle, hinside, hshort⟩ := blockRange_spec chain.length_pos hrange
  rw [hrange, ← hfirst]
  dsimp only
  let blockOf (number : ℕ) : SignedBlock := chain.blocks[number]?.getD chain.lastBlock
  have hblock : ∀ number ∈ numbersUpTo first last, chain.blockAt number = .ok (blockOf number) := by
    intro number hnumber
    rw [numbersUpTo, List.mem_range'_1] at hnumber
    have hlt : number < chain.blocks.length := by
      have hlength : chain.length = chain.blocks.length := rfl
      omega
    have hat := List.getElem?_eq_getElem hlt
    simp only [Blockchain.blockAt, blockOf, hat, Option.getD_some]
  have hcount : (numbersUpTo first last).length = last + 1 - first := by
    rw [numbersUpTo, List.length_range']
  refine ⟨_, mapM_of_ok hblock, ?_, ?_, ?_⟩
  · rw [List.length_map, hcount]
    omega
  · rw [List.length_map, hcount]
    omega
  · intro i signedBlock hi
    obtain ⟨hlt, _⟩ := List.getElem?_eq_some_iff.mp hi
    rw [List.length_map, hcount] at hlt
    have hplace : (numbersUpTo first last)[i]? = some (first + i) := by
      rw [numbersUpTo, List.getElem?_range' (by omega), Nat.one_mul]
    have hat : first + i < chain.blocks.length := by
      have hlength : chain.length = chain.blocks.length := rfl
      omega
    rw [List.getElem?_map, hplace] at hi
    have hsigned := Option.some.inj hi
    rw [← hsigned, List.getElem?_eq_getElem hat]
    simp only [blockOf, List.getElem?_eq_getElem hat, Option.getD_some]

/-- On a linked chain whose numbers leave room for one response of blocks, every request is
answered from the number asked for or the last one, and the words are the integers. -/
theorem requests_served (linked : chain.Linked) (room : chain.length + blockTrLength ≤ 2 ^ 64)
    (blocksFrom blocksTo : UInt64) (enough : headerTrLength + 1 < rounds) :
    let first := min (chain.length - 1) blocksFrom.toNat
    let length := UInt64.ofNat chain.length
    (∃ headers, serveHeaders rounds chain blocksFrom blocksTo = some (.ok headers) ∧
      HeadersServed chain first headers) ∧
    (∃ blocks, serveBlocks rounds chain blocksFrom blocksTo = some (.ok blocks) ∧
      BlocksServed chain first blocks) ∧
    (headerWords length blocksFrom blocksTo).map UInt64.toNat UInt64.toNat =
      headerRange chain.length blocksFrom.toNat blocksTo.toNat ∧
    (blockWords length blocksFrom blocksTo).map UInt64.toNat UInt64.toNat =
      blockRange chain.length blocksFrom.toNat blocksTo.toNat := by
  have hfewer : blockTrLength + 1 < rounds := by
    have hblocks : blockTrLength = 9 := rfl
    have hheaders : headerTrLength = 49 := rfl
    omega
  have fits : chain.length < 2 ^ 64 := by
    have hblocks : blockTrLength = 9 := rfl
    omega
  intro first length
  obtain ⟨headers, hheaders, hserved⟩ :=
    processHeaderRequest_served linked blocksFrom.toNat blocksTo.toNat
  obtain ⟨blocks, hblocks, hsent⟩ :=
    processBlockRequest_served chain blocksFrom.toNat blocksTo.toNat
  refine ⟨⟨headers, ?_, hserved⟩, ⟨blocks, ?_, hsent⟩, ?_, ?_⟩
  · rw [serveHeaders_eq fits enough, hheaders]
  · rw [serveBlocks_eq room hfewer, hblocks]
  · exact headerWords_toNat blocksFrom blocksTo chain.length_pos fits
  · exact blockWords_toNat blocksFrom blocksTo chain.length_pos room

end

section Examples

def servedGenesis : SignedBlock := ⟨⟨⟨0, 0, 0, 1, "", 0⟩, [], []⟩, ⟨"genesis", ""⟩⟩

def servedBlock : SignedBlock := ⟨⟨⟨1, 1, 1, 1, "#", 600⟩, [], []⟩, ⟨"miner", ""⟩⟩

noncomputable local instance servedExternals : Externals :=
  namedExternals [servedGenesis.blockDetails, servedBlock.blockDetails] []

theorem servedChain_isOk :
    (Blockchain.start servedGenesis >>= (Blockchain.insert · servedBlock)).isOk = true := by
  decide

def servedChain : Blockchain := okValue _ servedChain_isOk

theorem servedChain_linked : servedChain.Linked := by
  have hblocks : servedChain.blocks = [servedGenesis, servedBlock] := by decide +kernel
  have hfollows : Follows servedGenesis servedBlock := by
    unfold Follows
    decide +kernel
  rw [Blockchain.Linked, hblocks]
  exact .cons_cons hfollows (.singleton _)

/-- A request from the last word down to the first, on a chain of two blocks. -/
theorem requests_served_extremes :
    ∃ headers, serveHeaders 51 servedChain 18446744073709551615 0 = some (.ok headers) ∧
      HeadersServed servedChain 1 headers :=
  (requests_served servedChain_linked (by decide +kernel) 18446744073709551615 0
    (by decide)).1

end Examples
end Publiq
