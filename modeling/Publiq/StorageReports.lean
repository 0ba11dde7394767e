import Publiq.ServiceRun
import Publiq.StorageNode

/-! A storage and its node as one system: the storage serves clients, the node hears of it later
and counts, and from time to time it reports. What the reports say adds up to files that were
sent. -/
namespace Publiq
open Message Checked

namespace ServiceRun
open ServiceCounter

def countedIn (fileItems : List ServiceStatisticsFile) (unit : ServiceUnit) : ℕ :=
  (((reportLines fileItems).filter fun line => line.1 = unit).map fun line => line.2.toNat).sum

def reportedOf (unit : ServiceUnit) : List ServiceEvent → ℕ
  | [] => 0
  | .accepted _ _ :: past => reportedOf unit past
  | .refused _ _ :: past => reportedOf unit past
  | .reported fileItems :: past => countedIn fileItems unit + reportedOf unit past

theorem nodup_reportLines (now : ℤ) (service : ServiceCounter) :
    ((reportLines (service.takeStatisticsInfo now).1).map Prod.fst).Nodup := by
  have holds := tallyUnits_holds service.units.entries
    (show (⟨∅, []⟩ : ServiceCounter.Tally).Holds [] from ⟨by simp, List.Perm.refl []⟩)
  have walked : ((service.units.entries.map fun entry =>
      (entry.1, countNew entry.2)).map Prod.fst).Nodup := by
    rw [List.map_map]
    exact service.units.distinct
  rw [List.nil_append] at holds
  exact (holds.lines.map Prod.fst).nodup_iff.mpr
    (walked.sublist (List.filter_sublist.map Prod.fst))

theorem filter_line {lines : List (ServiceUnit × UInt64)} (nodup : (lines.map Prod.fst).Nodup)
    {unit : ServiceUnit} {count : UInt64} (mem : (unit, count) ∈ lines) :
    lines.filter (fun line => line.1 = unit) = [(unit, count)] := by
  induction lines with
  | nil => cases mem
  | cons line rest ih =>
      rw [List.map_cons, List.nodup_cons] at nodup
      have others (h : line.1 = unit) : rest.filter (fun line => line.1 = unit) = [] := by
        rw [List.filter_eq_nil_iff]
        intro other hother hsame
        refine nodup.1 (List.mem_map.mpr ⟨other, hother, ?_⟩)
        rw [of_decide_eq_true hsame, h]
      rcases List.mem_cons.mp mem with rfl | mem
      · rw [List.filter_cons_of_pos (by simp), others rfl]
      · have hne : line.1 ≠ unit := fun h => nodup.1 (List.mem_map.mpr ⟨_, mem, h.symm⟩)
        rw [List.filter_cons_of_neg (by simpa using hne)]
        exact ih nodup.2 mem

theorem countedIn_take {service : ServiceCounter} (sized : service.Sized) (now : ℤ)
    (unit : ServiceUnit) :
    countedIn (service.takeStatisticsInfo now).1 unit = (service.newCounters unit).card := by
  unfold countedIn
  cases hlines : (reportLines (service.takeStatisticsInfo now).1).filter
      fun line => line.1 = unit with
  | nil =>
      -- a unit without a line has no new counter, since their number fits in a word
      by_contra hne
      have hsmall : (service.newCounters unit).card < 2 ^ 64 := by
        cases hfind : service.units.find? unit with
        | none =>
            rw [newCounters, hfind]
            decide
        | some counters => exact countNew_toNat sized hfind ▸ (countNew counters).toNat_lt
      have hpos : (service.newCounters unit).card ≠ 0 := Ne.symm hne
      have hmem : (unit, UInt64.ofNat (service.newCounters unit).card) ∈
          reportLines (service.takeStatisticsInfo now).1 := by
        have hback : (UInt64.ofNat (service.newCounters unit).card).toNat =
            (service.newCounters unit).card := UInt64.toNat_ofNat_of_lt hsmall
        refine (mem_reportLines_take sized now _ _).mpr ⟨fun hzero => hpos ?_, hback⟩
        rw [← hback, hzero]
        rfl
      rw [filter_line (nodup_reportLines now service) hmem] at hlines
      cases hlines
  | cons line rest =>
      obtain ⟨other, count⟩ := line
      have hline : (other, count) ∈ (reportLines (service.takeStatisticsInfo now).1).filter
          fun line => line.1 = unit := hlines ▸ List.mem_cons_self
      obtain ⟨hmem, hunit⟩ := List.mem_filter.mp hline
      obtain rfl : other = unit := of_decide_eq_true hunit
      rw [filter_line (nodup_reportLines now service) hmem] at hlines
      cases hlines
      rw [List.map_singleton, List.sum_singleton]
      exact ((mem_reportLines_take sized now other count).mp hmem).2

theorem reportedOf_eq {past : List ServiceEvent} {service : ServiceCounter} {now : ℤ}
    (run : ServiceRun past service now) (unit : ServiceUnit) :
    reportedOf unit past = ((settledOrders past).filter fun order => order.1 = unit).card := by
  induction run with
  | start now => rfl
  | accepted _ _ _ ih => exact ih
  | refused _ _ _ ih => exact ih
  | @reported past service last now run later ih =>
      have hsplit : acceptedOrders past = newOrders past ∪ settledOrders past :=
        (Finset.sdiff_union_of_subset (settledOrders_subset past)).symm
      have hapart : Disjoint ((newOrders past).filter fun order => order.1 = unit)
          ((settledOrders past).filter fun order => order.1 = unit) :=
        Finset.disjoint_filter_filter Finset.sdiff_disjoint
      rw [reportedOf, ih, countedIn_take run.follows.sized, run.follows.newCounters_card,
        settledOrders, hsplit, Finset.filter_union, Finset.card_union_of_disjoint hapart]
  | reordered _ _ ih => exact ih

end ServiceRun

/-- What is counted of an order that a storage has served. The unit is left out, as in old
reports. -/
def SignedStorageOrder.service (signed : SignedStorageOrder) : ServiceUnit × ServiceUnitCounter :=
  (⟨signed.order.fileUri, "", signed.authorization.address⟩,
    ⟨signed.order.sessionId, signed.order.signedTimePoint, signed.order.seconds⟩)

section
variable [OrderExternals] [StorageExternals]

/-- `node::run` for a `Served` of its storage: what it counts, if the order still holds and the
file is known. -/
def servedOrder (config : Config) (docs : Documents) (now : ℤ) (storageOrderToken : String) :
    Checked (Option (ServiceUnit × ServiceUnitCounter)) :=
  if config.nodeType = .storage then do
    let signed ← StorageExternals.openOrder storageOrderToken
    pure (if StorageOrder.verifyStorageOrder now signed = true ∧
        signed.order.storageAddress = config.publicKey ∧
        docs.fileExists signed.order.fileUri = true then some signed.service else none)
  else pure none

end

/-- A storage and its node. `direct` holds what the node has not read yet. -/
structure StorageSystem where
  slave : StorageNode
  direct : List String
  service : ServiceCounter

/-- What clients and the chain get to see: a storage that answers a request, and what its node
counts and reports. -/
inductive ServingEvent where
  | answered (slave : StorageNode) (now : ℤ) (request : StorageRequest)
  | counted (event : ServiceEvent)

def ServingEvent.counting : ServingEvent → Option ServiceEvent
  | .answered _ _ _ => none
  | .counted event => some event

def countings (past : List ServingEvent) : List ServiceEvent :=
  past.filterMap ServingEvent.counting

section
variable [Externals] [OrderExternals] [StorageExternals]

/-- The node reads what is next in `direct`; a service that cannot be counted changes nothing. -/
def StorageSystem.hear (docs : Documents) (now : ℤ) (s : StorageSystem) :
    List ServingEvent × StorageSystem :=
  match s.direct with
  | [] => ([], s)
  | token :: rest =>
      match servedOrder s.slave.config docs now token with
      | .ok (some (unit, counter)) =>
          match s.service.served now unit counter with
          | .ok service => ([.counted (.accepted unit counter)], { s with direct := rest, service })
          | .error _ => ([.counted (.refused unit counter)], { s with direct := rest })
      | _ => ([], { s with direct := rest })

/-- A storage and its node over time, the last event first. The storage starts with the files that
it has kept. -/
inductive ServingRun : List ServingEvent → StorageSystem → ℤ → Prop where
  | start {slave : StorageNode} (now : ℤ) : slave.storage.Addressed →
      ServingRun [] ⟨slave, [], ⟨∅⟩⟩ now
  | command {past : List ServingEvent} {s : StorageSystem} {now : ℤ} (overwrites : Bool)
      (command : StorageCommand) : ServingRun past s now →
      ServingRun past { s with slave := (s.slave.command overwrites command).2 } now
  | answer {past : List ServingEvent} {s : StorageSystem} {last now : ℤ}
      (request : StorageRequest) : ServingRun past s last → last ≤ now →
      ServingRun (.answered s.slave now request :: past)
        { s with direct := s.direct ++ (s.slave.answer now request).2.toList } now
  | hear {past : List ServingEvent} {s : StorageSystem} {last now : ℤ} (docs : Documents) :
      ServingRun past s last → last ≤ now →
      ServingRun ((s.hear docs now).1 ++ past) (s.hear docs now).2 now
  | report {past : List ServingEvent} {s : StorageSystem} {last now : ℤ} :
      ServingRun past s last → last ≤ now →
      ServingRun (.counted (.reported (s.service.takeStatisticsInfo now).1) :: past)
        { s with service := (s.service.takeStatisticsInfo now).2 } now

/-- A client was sent the file of an order: its content is that of the uri, and a channel that was
verified at that time had signed the order for this storage. -/
def GaveFile (past : List ServingEvent) (service : ServiceUnit × ServiceUnitCounter) : Prop :=
  ∃ (slave : StorageNode) (now : ℤ) (uri token : String) (signed : SignedStorageOrder)
    (file : StorageFile), .answered slave now (.storageFileRequest uri token) ∈ past ∧
    slave.answer now (.storageFileRequest uri token) = (.storageFile file, some token) ∧
    StorageExternals.openOrder token = .ok signed ∧ slave.permits now signed = true ∧
    Externals.hash file.data = signed.order.fileUri ∧ service = signed.service

theorem GaveFile.later {past : List ServingEvent} {service : ServiceUnit × ServiceUnitCounter}
    (gave : GaveFile past service) (events : List ServingEvent) :
    GaveFile (events ++ past) service := by
  obtain ⟨slave, now, uri, token, signed, file, hpast, h⟩ := gave
  exact ⟨slave, now, uri, token, signed, file, List.mem_append_right _ hpast, h⟩

/-- What holds of a storage and its node all along. -/
structure ServesTruly (past : List ServingEvent) (s : StorageSystem) (now : ℤ) : Prop where
  addressed : s.slave.storage.Addressed
  answered : ∀ slave time request, .answered slave time request ∈ past → slave.storage.Addressed
  told : ∀ token ∈ s.direct, ∃ signed, StorageExternals.openOrder token = .ok signed ∧
    GaveFile past signed.service
  counts : ∃ last ≤ now, ServiceRun (countings past) s.service last
  accepted : ∀ service ∈ ServiceRun.acceptedOrders (countings past), GaveFile past service

theorem gaveFile_of_told {past : List ServingEvent} {slave : StorageNode} {now : ℤ}
    {request : StorageRequest} (addressed : slave.storage.Addressed) {token : String}
    (h : token ∈ (slave.answer now request).2.toList) :
    ∃ signed, StorageExternals.openOrder token = .ok signed ∧
      GaveFile (.answered slave now request :: past) signed.service := by
  have htold : slave.answer now request = ((slave.answer now request).1, some token) :=
    Prod.ext rfl (Option.mem_toList.mp h)
  obtain ⟨file, hfile⟩ := StorageNode.answer_told htold
  rw [hfile] at htold
  obtain ⟨uri, other, rfl, hsent⟩ := StorageNode.answer_file addressed htold
  split_ifs at hsent with hstorage
  · obtain ⟨hsame, signed, hopen, hpermits, hhash⟩ := hsent
    cases hsame
    exact ⟨signed, hopen, slave, now, uri, token, signed, file, List.mem_cons_self, htold, hopen,
      hpermits, hhash, rfl⟩
  · cases hsent.1

omit [Externals] in
theorem servedOrder_some {config : Config} {docs : Documents} {now : ℤ} {token : String}
    {service : ServiceUnit × ServiceUnitCounter}
    (h : servedOrder config docs now token = .ok (some service)) :
    ∃ signed, StorageExternals.openOrder token = .ok signed ∧ service = signed.service := by
  unfold servedOrder at h
  split_ifs at h
  · obtain ⟨signed, hopen, h⟩ := bind_ok_iff.mp h
    have h := pure_ok_iff.mp h
    split_ifs at h
    cases h
    exact ⟨signed, hopen, rfl⟩
  · cases pure_ok_iff.mp h

theorem ServesTruly.answer {past : List ServingEvent} {s : StorageSystem} {last now : ℤ}
    (truly : ServesTruly past s last) (later : last ≤ now) (request : StorageRequest) :
    ServesTruly (.answered s.slave now request :: past)
      { s with direct := s.direct ++ (s.slave.answer now request).2.toList } now where
  addressed := truly.addressed
  answered := fun slave time other hpast => by
    rcases List.mem_cons.mp hpast with h | hpast
    · cases h
      exact truly.addressed
    · exact truly.answered slave time other hpast
  told := fun token htoken => by
    rcases List.mem_append.mp htoken with htoken | htoken
    · obtain ⟨signed, hopen, gave⟩ := truly.told token htoken
      exact ⟨signed, hopen, gave.later [_]⟩
    · exact gaveFile_of_told truly.addressed htoken
  counts := by
    obtain ⟨earlier, hearlier, counts⟩ := truly.counts
    exact ⟨earlier, hearlier.trans later, counts⟩
  accepted := fun service hservice => (truly.accepted service hservice).later [_]

/-- The node counts what it hears of, when it can. -/
theorem ServesTruly.hear {past : List ServingEvent} {s : StorageSystem} {last now : ℤ}
    (truly : ServesTruly past s last) (later : last ≤ now) (docs : Documents) :
    ServesTruly ((s.hear docs now).1 ++ past) (s.hear docs now).2 now := by
  obtain ⟨earlier, hearlier, counts⟩ := truly.counts
  have hnow := hearlier.trans later
  have hpast (event : ServiceEvent) : ∀ slave time request,
      .answered slave time request ∈ [.counted event] ++ past → slave.storage.Addressed :=
    fun slave time request hmem => by
      rcases List.mem_cons.mp hmem with h | hmem
      · cases h
      · exact truly.answered slave time request hmem
  unfold StorageSystem.hear
  cases hdirect : s.direct with
  | nil =>
      exact ⟨truly.addressed, truly.answered, truly.told, ⟨earlier, hnow, counts⟩,
        truly.accepted⟩
  | cons token rest =>
      have hrest (events : List ServingEvent) : ∀ token ∈ rest, ∃ signed,
          StorageExternals.openOrder token = .ok signed ∧
            GaveFile (events ++ past) signed.service := fun other hother => by
        obtain ⟨signed, hopen, gave⟩ :=
          truly.told other (hdirect ▸ List.mem_cons_of_mem token hother)
        exact ⟨signed, hopen, gave.later events⟩
      simp only
      split
      · rename_i unit counter horder
        obtain ⟨signed, hopen, hservice⟩ := servedOrder_some horder
        obtain ⟨other, hother, gave⟩ := truly.told token (hdirect ▸ List.mem_cons_self)
        cases hopen.symm.trans hother
        split
        · rename_i service hserved
          refine ⟨truly.addressed, hpast _, hrest _,
            ⟨now, le_refl now, counts.accepted hnow hserved⟩, ?_⟩
          intro order horder
          rcases Finset.mem_insert.mp horder with rfl | horder
          · exact hservice ▸ gave.later [_]
          · exact (truly.accepted order horder).later [_]
        · rename_i failure hserved
          exact ⟨truly.addressed, hpast _, hrest _,
            ⟨now, le_refl now, counts.refused hnow hserved⟩,
            fun order horder => (truly.accepted order horder).later [_]⟩
      · exact ⟨truly.addressed, truly.answered, hrest [], ⟨earlier, hnow, counts⟩,
          truly.accepted⟩

theorem ServingRun.servesTruly (reads : StorageExternals.ReadsBack) {past : List ServingEvent}
    {s : StorageSystem} {now : ℤ} (run : ServingRun past s now) : ServesTruly past s now := by
  induction run with
  | start now addressed =>
      exact ⟨addressed, fun _ _ _ hnil => absurd hnil List.not_mem_nil, List.forall_mem_nil _,
        ⟨now, le_refl now, .start now⟩, fun _ hnil => absurd hnil (Finset.notMem_empty _)⟩
  | command overwrites command _ ih =>
      exact { ih with
        addressed := (StorageNode.addressed_command reads ih.addressed overwrites command).1 }
  | answer request _ later ih => exact ih.answer later request
  | hear docs _ later ih => exact ih.hear later docs
  | report _ later ih =>
      obtain ⟨earlier, hearlier, counts⟩ := ih.counts
      refine ⟨ih.addressed, fun slave time request hmem => ?_, fun token htoken => ?_,
        ⟨_, le_refl _, counts.reported (hearlier.trans later)⟩,
        fun order horder => (ih.accepted order horder).later [_]⟩
      · rcases List.mem_cons.mp hmem with h | hmem
        · cases h
        · exact ih.answered slave time request hmem
      · obtain ⟨signed, hopen, gave⟩ := ih.told token htoken
        exact ⟨signed, hopen, gave.later [_]⟩

/-- Whatever its clients, its node and the channels do, every file that a storage sends has the
content of its uri, and its reports add up to different orders, each of them one whose file it has
sent. -/
theorem reports_of_given_files (reads : StorageExternals.ReadsBack) {past : List ServingEvent}
    {s : StorageSystem} {now : ℤ} (run : ServingRun past s now) :
    (∀ slave time request file told, .answered slave time request ∈ past →
      slave.answer time request = (.storageFile file, told) →
      ∃ uri token, request = .storageFileRequest uri token ∧
        if slave.config.nodeType = .storage then told = some token ∧
          ∃ signed, StorageExternals.openOrder token = .ok signed ∧
            slave.permits time signed = true ∧ Externals.hash file.data = signed.order.fileUri
        else told = none ∧ Externals.hash file.data = uri) ∧
    ∃ orders : Finset (ServiceUnit × ServiceUnitCounter),
      (∀ order ∈ orders, GaveFile past order) ∧ ∀ unit,
        ServiceRun.reportedOf unit (countings past) =
          (orders.filter fun order => order.1 = unit).card := by
  have truly := run.servesTruly reads
  obtain ⟨last, _, counts⟩ := truly.counts
  refine ⟨fun slave time request file told hpast h =>
    StorageNode.answer_file (truly.answered slave time request hpast) h,
    ServiceRun.settledOrders (countings past), fun order horder => ?_, counts.reportedOf_eq⟩
  exact truly.accepted order (ServiceRun.settledOrders_subset (countings past) horder)

end

section Examples

local instance storageExternals : Externals := plainExternals

local instance storageOrders : OrderExternals := StorageOrder.plainOrders

def givenOrder : SignedStorageOrder :=
  StorageOrder.sign (StorageOrder.requestFrom "storage") "channel"

/-- A storage that keeps files as they are, and reads that order from every token. -/
local instance storageTexts : StorageExternals where
  toBase64 data := data
  fromBase64 data := data
  openOrder _ := .ok givenOrder

def emptyStorage : StorageNode :=
  ⟨⟨"storage", "key", .storage, "", false, false, false⟩, ⟨∅⟩, []⟩

def givenDocuments : Documents := (default : Documents).insertFile ⟨"file", ["author"]⟩

/-- The storage gets the file, a client comes with the order, the node hears of it and reports. -/
theorem givenOrder_given : ∃ past s, ServingRun past s 0 ∧
    ∃ orders : Finset (ServiceUnit × ServiceUnitCounter), (∀ order ∈ orders, GaveFile past order) ∧
      (orders.filter fun order => order.1 = ⟨"file", "", "channel"⟩).card = 1 := by
  have run : ServingRun [] ⟨emptyStorage, [], ⟨∅⟩⟩ 0 := .start 0 Storage.addressed_empty
  have run := (run.command true (.storageFile ⟨"text", "file"⟩)).command true
    (.setVerifiedChannels ["channel"])
  have run := ((run.answer (.storageFileRequest "" "token") (le_refl 0)).hear givenDocuments
    (le_refl 0)).report (le_refl 0)
  obtain ⟨_, orders, gave, hcount⟩ := reports_of_given_files (fun _ => rfl) run
  exact ⟨_, _, run, orders, gave, (hcount _).symm.trans (by decide +kernel)⟩

end Examples
end Publiq
