import Publiq.Ledger
import Mathlib.Data.UInt

/-! `validate_statistics` and `check_service_statistics` of `communication_p2p.cpp`:
channels and storages report the same deliveries, and what both agree on decides
who shares the rewards of a block. Counts are 64-bit words that wrap. -/
namespace Publiq
open Message Checked

/-- One line of a report, with who reported it. -/
structure StatisticsRow where
  server : String
  fileUri : String
  unitUri : String
  peer : String
  count : UInt64
  deriving DecidableEq

/-- A share in a reward: the part `numerator / denominator` goes to the address. -/
structure Share where
  address : String
  numerator : UInt64
  denominator : UInt64
  deriving DecidableEq

abbrev Provided := Std.ExtTreeMap String ServiceStatistics

abbrev Tally := Std.ExtTreeMap String UInt64

abbrev OwnerViews := Std.ExtTreeMap ℕ (Std.ExtTreeMap String Tally)

def statisticsRows (provided : Provided) : List StatisticsRow :=
  provided.toList.flatMap fun (server, statistics) =>
    statistics.fileItems.flatMap fun fileItem =>
      fileItem.countItems.map fun countItem =>
        ⟨server, fileItem.fileUri, fileItem.unitUri, countItem.peerAddress, countItem.count⟩

/-- A whole number rounded to 53 significant bits, ties to even, as a conversion to
`double` and a product of doubles round it. -/
def roundDouble (n : ℕ) : ℕ :=
  let shift := n.log2 + 1 - 53
  if shift = 0 then n
  else
    let quotient := n / 2 ^ shift
    let rest := n % 2 ^ shift
    let half := 2 ^ (shift - 1)
    (if half < rest ∨ rest = half ∧ quotient % 2 = 1 then quotient + 1 else quotient) * 2 ^ shift

/-- `stat_mismatch`: the larger count exceeds the smaller one times `STAT_ERROR_LIMIT`,
in double precision. The limit is the double next to 1.2, here times `2 ^ 52`. -/
def statMismatch (first second : UInt64) : Bool :=
  let larger := max first.toNat second.toNat
  let smaller := min first.toNat second.toNat
  roundDouble (roundDouble smaller * 5404319552844595) < roundDouble larger * 2 ^ 52

def reportedViews (rows : List StatisticsRow) (channel fileUri storage : String) : UInt64 :=
  ((rows.filter fun row => row.server = channel ∧ row.fileUri = fileUri ∧ row.peer = storage).map
    StatisticsRow.count).sum

def agrees (channelRows : List StatisticsRow) (row : StatisticsRow) : Bool :=
  let value := reportedViews channelRows row.peer row.fileUri row.server
  value > 0 && !statMismatch value row.count

def crossVerified (channelRows storageRows : List StatisticsRow) : List StatisticsRow :=
  let verified := storageRows.filter (agrees channelRows)
  channelRows.filter fun row =>
    verified.any fun other =>
      other.peer = row.server && other.fileUri = row.fileUri && other.server = row.peer

/-- `tally[key] += count`. -/
def Tally.bump (key : String) (count : UInt64) (tally : Tally) : Tally :=
  tally.insert key (tally.getD key 0 + count)

/-- The grouped views: by storage, by unit and file, and by serving channel and
owner channel. -/
structure ViewGroups where
  storageGroup : Tally
  authorGroup : Std.ExtTreeMap String Tally
  contentGroup : Std.ExtTreeMap String (Std.ExtTreeMap String OwnerViews)

/-- Count one confirmed row in every group. -/
def ViewGroups.count (docs : Documents) (groups : ViewGroups) (row : StatisticsRow) :
    Checked ViewGroups := do
  let unit ← docs.getUnit row.unitUri
  let contentId := unit.contentId.toNat
  let byOwner := groups.contentGroup.getD row.server ∅
  let byContent := byOwner.getD unit.channelAddress ∅
  let byUnit := byContent.getD contentId ∅
  let byFile := (byUnit.getD row.unitUri ∅ : Tally)
  let byContent := byContent.insert contentId
    (byUnit.insert row.unitUri (byFile.bump row.fileUri row.count))
  pure {
    storageGroup := groups.storageGroup.bump row.peer row.count
    authorGroup := groups.authorGroup.insert row.unitUri
      (Tally.bump row.fileUri row.count (groups.authorGroup.getD row.unitUri ∅))
    contentGroup := groups.contentGroup.insert row.server
      (byOwner.insert unit.channelAddress byContent) }

/-- `counts_per_channel_views` of `publiqd`: for every content the most viewed file.
Six blocks of the main net were counted from the running sum instead. -/
def countsPerChannelViews (views : OwnerViews) (blockNumber : ℕ) (isTestnet : Bool) : UInt64 :=
  let special := !isTestnet && blockNumber ∈ [30335, 30438, 30346, 30460, 30463, 30478]
  views.toList.foldl (fun count byContent =>
    count + (byContent.2.toList.flatMap fun byUnit => byUnit.2.toList.map Prod.snd).foldl
      (fun most views => if special then max count views else max most views) 0) 0

/-- The shares of the authors of one unit: the average views of its files, split over
the files and their authors, and the average itself. -/
def unitAuthorShares (docs : Documents) (byFile : Tally) : Checked (UInt64 × List Share) := do
  let files := byFile.toList
  let fileCount := UInt64.ofNat files.length
  require (fileCount ≠ 0) (.logicError "0 == file_count")
  let total := (files.map Prod.snd).sum / fileCount
  require (total ≠ 0) (.logicError "0 == total")
  let shares ← files.mapM fun (fileUri, _) => do
    let file ← docs.getFile fileUri
    let authorsCount := UInt64.ofNat file.authorAddresses.length
    pure (file.authorAddresses.map fun author => ⟨author, total, fileCount * authorsCount⟩)
  pure (total, shares.flatten)

def scaleShares (factor : UInt64) (shares : List Share) : List Share :=
  shares.map fun share => { share with denominator := share.denominator * factor }

def channelShares (serving owner : String) (count : UInt64) : List Share :=
  if serving = owner then [⟨serving, 2 * count, 2⟩] else [⟨owner, count, 2⟩, ⟨serving, count, 2⟩]

abbrev UnitViews := Std.ExtTreeMap String Tally

def raiseUnitViews (serving : String) (views : OwnerViews) (counts : UnitViews) : UnitViews :=
  (views.toList.flatMap fun byContent => byContent.2.toList).foldl (fun counts (unitUri, byFile) =>
    let byChannel : Tally := counts.getD unitUri ∅
    counts.insert unitUri (byChannel.insert serving
      ((byFile.toList.map Prod.snd).foldl max (byChannel.getD serving 0)))) counts

/-- The result of `validate_statistics`. -/
structure Validated where
  authorResult : List Share
  channelResult : List Share
  storageResult : List Share
  unitUriViewCounts : UnitViews

def ViewGroups.pairs (groups : ViewGroups) : List (String × String × OwnerViews) :=
  groups.contentGroup.toList.flatMap fun (serving, byOwner) =>
    byOwner.toList.map fun (owner, views) => (serving, owner, views)

/-- `validate_statistics`. -/
def validateStatistics (ctx : Context) (docs : Documents) (channelProvided storageProvided : Provided)
    (blockNumber : ℕ) : Checked Validated := do
  let channelRows := statisticsRows channelProvided
  let storageRows := statisticsRows storageProvided
  require (∀ row ∈ channelRows, row.count ≠ 0) (.logicError "count_item.count == 0")
  require (∀ row ∈ storageRows, row.count ≠ 0) (.logicError "count_item.count == 0")
  require (docs.filesMissing (channelRows.map StatisticsRow.fileUri)).isNone
    (.logicError "false == check_file_uris.first")
  require (docs.unitsMissing (channelRows.map StatisticsRow.unitUri)).isNone
    (.logicError "false == check_unit_uris.first")
  let groups ← (crossVerified channelRows storageRows).foldlM (ViewGroups.count docs) ⟨∅, ∅, ∅⟩
  let storages := groups.storageGroup.toList
  let authors ← groups.authorGroup.toList.mapM fun (_, byFile) => unitAuthorShares docs byFile
  let counted := groups.pairs.map fun (serving, owner, views) =>
    (serving, owner, countsPerChannelViews views blockNumber ctx.config.testnet)
  pure {
    storageResult := scaleShares (storages.map Prod.snd).sum
      (storages.map fun (storage, views) => ⟨storage, views, 1⟩)
    authorResult := scaleShares (authors.map Prod.fst).sum (authors.flatMap Prod.snd)
    channelResult := scaleShares (counted.map fun (_, _, count) => count).sum
      (counted.flatMap fun (serving, owner, count) => channelShares serving owner count)
    unitUriViewCounts := groups.pairs.foldl (fun counts (serving, _, views) =>
      raiseUnitViews serving views counts) ∅ }

def reportedRole (l : Ledger) (tpStart tpEnd : ℤ) (signedTransaction : SignedTransaction) :
    Option NodeType :=
  match signedTransaction.transactionDetails.action with
  | .serviceStatistics statistics =>
      if statistics.startTimePoint = tpStart ∧ statistics.endTimePoint = tpEnd then
        l.state.getRole statistics.serverAddress
      else none
  | _ => none

def reportedRoles (l : Ledger) (tpStart tpEnd : ℤ) (transactions : List SignedTransaction) :
    List NodeType :=
  transactions.filterMap (reportedRole l tpStart tpEnd)

/-- `check_service_statistics`, true for an error: a block holds less than half of the
known reports of channels, or of the others. -/
def checkServiceStatistics (block : Block) (pool reverted : List SignedTransaction) (l : Ledger) :
    Bool :=
  let tpEnd := block.header.timeSigned - blockMineDelay
  let tpStart := block.header.timeSigned - 2 * blockMineDelay
  let inBlock := reportedRoles l tpStart tpEnd block.signedTransactions
  let known := reportedRoles l tpStart tpEnd (pool ++ reverted)
  2 * inBlock.count .channel < known.count .channel ||
    2 * inBlock.countP (· ≠ .channel) < known.countP (· ≠ .channel)

end Publiq
