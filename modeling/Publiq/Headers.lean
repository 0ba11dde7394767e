import Publiq.Blockchain

/-! The weight of a chain: `calc_delta`, and the checks `check_headers` and
`check_delta_vector` of `communication_p2p.cpp`, which say true for an error. -/
namespace Publiq
open Message Checked

/-- `node_internals::calc_delta`, in words that wrap. -/
def calcDelta [Externals] (key : String) (amount : UInt64) (prevHash : String)
    (consConst : UInt64) : UInt64 :=
  let dist := Externals.distance (Externals.hash key) prevHash
  let delta := amount * distMax / ((dist + 1) * consConst)
  if delta > deltaMax then deltaMax else delta

/-- `check_headers`. -/
def checkHeaders (next header : BlockHeaderExtended) : Bool :=
  next.blockNumber ≠ header.blockNumber + 1 ||
  next.cSum ≤ header.cSum ||
  next.cSum ≠ next.delta + header.cSum ||
  (next.cConst ≠ header.cConst && next.cConst ≠ header.cConst * 2 &&
    next.cConst ≠ header.cConst / 2) ||
  next.prevHash ≠ header.blockHash ||
  fromTimeT next.timeSigned < fromTimeT header.timeSigned ||
  clockSeconds (next.timeSigned - header.timeSigned) ≠ blockMineDelay

/-- `check_headers_vector`: the headers come with the highest number first. -/
def checkHeadersVector : List BlockHeaderExtended → Bool
  | next :: header :: rest => checkHeaders next header || checkHeadersVector (header :: rest)
  | _ => false

/-- A `c_const` that is not the expected one, and where it stands. -/
structure DeltaError where
  index : ℕ
  actual : UInt64
  expected : UInt64
  deriving DecidableEq

/-- The text that `check_delta_vector` composes. -/
def DeltaError.text (e : DeltaError) : String :=
  s!"c_const at index {e.index} is expected to be {e.expected} instead of {e.actual}"

/-- The inner loop of `check_delta_vector`: the sum of the deltas of a window. A
`c_const` is compared once, when the windows first reach it. -/
def sumWindow (expected : UInt64) :
    List (ℕ × UInt64 × UInt64) → ℕ × UInt64 → Except DeltaError (ℕ × UInt64)
  | [], s => .ok s
  | (index, delta, cConst) :: rest, (checkAt, deltaSum) =>
      if checkAt = index then
        if cConst ≠ expected then .error ⟨index, cConst, expected⟩
        else sumWindow expected rest (checkAt + 1, deltaSum + delta)
      else sumWindow expected rest (checkAt, deltaSum + delta)

/-- The expected `c_const` after a full window. -/
def adjustConst (expected deltaSum : UInt64) : UInt64 :=
  if deltaSum > UInt64.ofNat deltaStep * deltaUp then expected * 2
  else if deltaSum < UInt64.ofNat deltaStep * deltaDown ∧ expected > 1 then expected / 2
  else expected

/-- The outer loop of `check_delta_vector`, over the first indices of the windows. -/
def checkWindows (vector : List (ℕ × UInt64 × UInt64)) :
    List ℕ → ℕ × UInt64 → Except DeltaError UInt64
  | [], (_, expected) => .ok expected
  | index :: rest, (checkAt, expected) => do
      let window := (vector.drop index).take deltaStep
      let (checkAt, deltaSum) ← sumWindow expected window (checkAt, 0)
      let expected := if window.length = deltaStep then adjustConst expected deltaSum else expected
      checkWindows vector rest (checkAt, expected)

/-- `check_delta_vector`: the `c_const` that the next block has to carry, or else what
is wrong with the deltas and constants given. -/
def checkDeltaVector (deltaVector : List (UInt64 × UInt64)) :
    Checked (Except DeltaError UInt64) := do
  require (deltaVector ≠ []) (.logicError "check_delta_vector(): delta_vector.empty()")
  let expected :=
    match deltaVector[deltaStep - 1]? with
    | some (_, cConst) => cConst
    | none => (deltaVector.getLastD (0, 0)).2
  let indexEnd :=
    if deltaStep ≤ deltaVector.length then deltaVector.length - deltaStep + 1 else 1
  let indexed := deltaVector.zipIdx.map fun ((delta, cConst), index) => (index, delta, cConst)
  pure (checkWindows indexed (List.range indexEnd) (deltaStep, expected))

def lastDeltas (chain : Blockchain) (number : ℕ) : Checked (List (UInt64 × UInt64)) :=
  ((List.range (number + 1)).drop (number + 1 - deltaStep)).mapM fun index => do
    let header ← chain.headerAt index
    pure (header.delta, header.cConst)

end Publiq
