import Publiq.SponsorshipRun

/-! A sponsorship that is taken back leaves the documents as they were before it. -/
namespace Publiq.Documents
open Message Checked

/-- The sponsorship that `sponsor_content_unit_apply` stores, but for the count of the times
used before it. -/
def newSponsorship (spi : SponsorContentUnit) (amount : Coin) (transactionHash : String) :
    SponsoredInformation :=
  { startTimePoint := (sponsoredInterval spi).1
    endTimePoint := clockSeconds (sponsoredInterval spi).2
    amount
    timePointsUsedBefore := 1
    sponsorAddress := spi.sponsorAddress
    transactionHash
    cancelled := false }

def withSponsorship (docs : Documents) (uri : String) (cusi : ContentUnitSponsoredInformation)
    (transactionHash : String) (number : ℕ) : Documents :=
  { docs with
    sponsored := docs.sponsored.insert uri cusi
    expiring := docs.expiring.set number ((docs.expiring.get number).insert transactionHash
      ⟨uri, transactionHash, number, 0⟩)
    hashToBlock := docs.hashToBlock.insert transactionHash number }

section
variable [EntrySort]

theorem sponsorContentUnitApply_eq (chain : Blockchain) (spi : SponsorContentUnit) (amount : Coin)
    (hash : String) (docs : Documents) :
    docs.sponsorContentUnitApply chain spi amount hash =
      require ((sponsoredInterval spi).1 < (sponsoredInterval spi).2)
        (.runtimeError "item_end_tp <= item_start_tp") >>= fun _ =>
      sponsoredWith docs.sponsored[spi.uri]? spi.uri (newSponsorship spi amount hash) >>=
        fun cusi =>
      getExpiringBlockNumber chain (clockSeconds (sponsoredInterval spi).2) >>= fun number =>
      pure (docs.withSponsorship spi.uri cusi hash number) := rfl

def itemsOf (cusi : Option ContentUnitSponsoredInformation) : List SponsoredInformation :=
  (cusi.map ContentUnitSponsoredInformation.sponsoredInformations).getD []

theorem sponsoredWith_total {cusi : Option ContentUnitSponsoredInformation} {uri : String}
    {si : SponsoredInformation} (orderly : ∀ unit, cusi = some unit → Orderly unit)
    (first : si.timePointsUsedBefore = 1) :
    ∃ after, sponsoredWith cusi uri si = .ok after := by
  cases cusi with
  | none =>
      refine ⟨_, refreshIndex_ok_iff.mpr ⟨?_, rfl⟩⟩
      intro i hi item hitem
      have hzero : i = 0 := by simpa using hi
      subst hzero
      cases Option.mem_def.mp hitem
      exact first.le
  | some unit =>
      have hunit := orderly unit rfl
      rw [sponsoredWith, addSponsorship, require_true hunit.items, ok_bind,
        require_true hunit.times, ok_bind]
      refine ⟨_, refreshIndex_ok_iff.mpr ⟨?_, rfl⟩⟩
      intro i _ item hitem
      rcases List.mem_append.mp (List.mem_of_getElem? (Option.mem_def.mp hitem)) with hold | hnew
      · exact hunit.used item hold
      · rw [List.mem_singleton.mp hnew]

/-- What a unit looks like with one sponsorship more. -/
theorem sponsoredWith_spec {cusi : Option ContentUnitSponsoredInformation} {uri : String}
    {si : SponsoredInformation} {after : ContentUnitSponsoredInformation}
    (orderly : ∀ unit, cusi = some unit → Orderly unit)
    (other : ∀ item ∈ itemsOf cusi, item.transactionHash ≠ si.transactionHash)
    (first : si.timePointsUsedBefore = 1) (h : sponsoredWith cusi uri si = .ok after) :
    Orderly after ∧ after.sponsoredInformations = itemsOf cusi ++
      [{ si with timePointsUsedBefore := after.timePointsUsed.length }] := by
  cases cusi with
  | none =>
      obtain ⟨hitems, htimes, _⟩ := refreshIndex_rest h
      refine ⟨orderly_of_refreshIndex h (by simp) (by simp) ?_ ?_ (by simp), ?_⟩
      · intro item hitem
        rw [List.mem_singleton.mp hitem, first]
        rfl
      · exact List.nodup_singleton _
      · rw [hitems, htimes]
        change [si] = [{ si with timePointsUsedBefore := 1 }]
        rw [← first]
  | some unit =>
      have hunit := orderly unit rfl
      obtain ⟨_, h⟩ := require_bind_ok_iff.mp h
      obtain ⟨_, h⟩ := require_bind_ok_iff.mp h
      obtain ⟨hitems, htimes, _⟩ := refreshIndex_rest h
      refine ⟨orderly_of_refreshIndex h (by simp) hunit.times ?_ ?_ ?_, ?_⟩
      · intro item hitem
        rcases List.mem_append.mp hitem with hold | hnew
        · exact hunit.used item hold
        · rw [List.mem_singleton.mp hnew]
      · unfold HashesDiffer
        rw [List.map_append, List.nodup_append]
        refine ⟨hunit.differ, List.nodup_singleton _, ?_⟩
        intro hash hmem hash' hmem'
        obtain ⟨item, hitem, rfl⟩ := List.mem_map.mp hmem
        rw [List.map_singleton, List.mem_singleton] at hmem'
        rw [hmem']
        exact other item hitem
      · rw [List.nodup_append]
        refine ⟨hunit.nodup, List.nodup_singleton _, ?_⟩
        intro i hi j hj
        rw [List.mem_singleton.mp hj]
        exact (hunit.refreshed.lt hi).ne
      · rw [hitems, htimes]
        rfl

section
variable {docs : Documents} {hash : String}

theorem SponsorshipsSound.fresh (sound : SponsorshipsSound docs)
    (fresh : docs.hashToBlock[hash]? = none) {uri : String}
    {cusi : ContentUnitSponsoredInformation} (stored : docs.sponsored[uri]? = some cusi) :
    ∀ item ∈ cusi.sponsoredInformations, item.transactionHash ≠ hash := by
  rintro item hmem rfl
  obtain ⟨number, _, hnumber, _⟩ := sound.recorded uri cusi stored item hmem
  cases fresh.symm.trans hnumber

theorem SponsorshipsSound.fresh_itemsOf (sound : SponsorshipsSound docs)
    (fresh : docs.hashToBlock[hash]? = none) (uri : String) :
    ∀ item ∈ itemsOf docs.sponsored[uri]?, item.transactionHash ≠ hash := by
  cases hunit : docs.sponsored[uri]? with
  | none => exact fun _ h => nomatch h
  | some cusi => exact sound.fresh fresh hunit

theorem SponsorshipsSound.fresh_entry (sound : SponsorshipsSound docs)
    (fresh : docs.hashToBlock[hash]? = none) (number : ℕ) :
    (docs.expiring.get number)[hash]? = none := by
  cases hentry : (docs.expiring.get number)[hash]? with
  | none => rfl
  | some entry => cases fresh.symm.trans (sound.listed number hash entry hentry)

omit [EntrySort] in
theorem withSponsorship_expiring (docs : Documents) (uri : String)
    (cusi : ContentUnitSponsoredInformation) (hash : String) (number n : ℕ) (key : String) :
    ((docs.withSponsorship uri cusi hash number).expiring.get n)[key]? =
      if number = n ∧ hash = key then some ⟨uri, hash, number, 0⟩
      else (docs.expiring.get n)[key]? :=
  getElem?_set_insert docs.expiring number hash ⟨uri, hash, number, 0⟩ n key

omit [EntrySort] in
theorem withSponsorship_hashToBlock (docs : Documents) (uri : String)
    (cusi : ContentUnitSponsoredInformation) (hash : String) (number : ℕ) (key : String) :
    (docs.withSponsorship uri cusi hash number).hashToBlock[key]? =
      if hash = key then some number else docs.hashToBlock[key]? := by
  change (docs.hashToBlock.insert hash number)[key]? = _
  rw [Std.ExtTreeMap.getElem?_insert]
  by_cases h : hash = key
  · simp [h]
  · simp [h]

/-- A new sponsorship keeps the sponsorships sound. -/
theorem SponsorshipsSound.withSponsorship (sound : SponsorshipsSound docs)
    (fresh : docs.hashToBlock[hash]? = none) {uri : String} {si : SponsoredInformation}
    (named : si.transactionHash = hash) (first : si.timePointsUsedBefore = 1)
    {cusi : ContentUnitSponsoredInformation}
    (h : sponsoredWith docs.sponsored[uri]? uri si = .ok cusi) (number : ℕ) :
    SponsorshipsSound (docs.withSponsorship uri cusi hash number) := by
  obtain ⟨orderly, hitems⟩ := sponsoredWith_spec (sound.orderly uri)
    (fun item hmem => named ▸ sound.fresh_itemsOf fresh uri item hmem) first h
  have others : ∀ other item, Recorded docs other item →
      Recorded (docs.withSponsorship uri cusi hash number) other item := by
    intro other item hrecorded
    have hne : hash ≠ item.transactionHash := by
      rintro rfl
      obtain ⟨_, _, hnumber, _⟩ := hrecorded
      cases fresh.symm.trans hnumber
    refine hrecorded.congr ?_ fun n => ?_
    · rw [withSponsorship_hashToBlock, if_neg hne]
    · rw [withSponsorship_expiring, if_neg fun h => hne h.2]
  refine ⟨fun other unit hunit => ?_, fun other unit hunit item hitem => ?_,
    fun n key entry hentry => ?_⟩
  · change (docs.sponsored.insert uri cusi)[other]? = some unit at hunit
    rw [Std.ExtTreeMap.getElem?_insert] at hunit
    split_ifs at hunit
    · cases hunit
      exact orderly
    · exact sound.orderly other unit hunit
  · change (docs.sponsored.insert uri cusi)[other]? = some unit at hunit
    rw [Std.ExtTreeMap.getElem?_insert] at hunit
    split_ifs at hunit with huri
    · cases hunit
      have huri : uri = other := by simpa using huri
      subst huri
      rw [hitems] at hitem
      rcases List.mem_append.mp hitem with hold | hnew
      · cases hunit : docs.sponsored[uri]? with
        | none =>
            rw [hunit] at hold
            cases hold
        | some before =>
            rw [hunit] at hold
            exact others uri item (sound.recorded uri before hunit item hold)
      · rw [List.mem_singleton.mp hnew]
        refine ⟨number, 0, ?_, ?_, fun h => (h rfl).elim⟩
        · rw [withSponsorship_hashToBlock, if_pos named.symm]
        · rw [withSponsorship_expiring, if_pos ⟨rfl, named.symm⟩, named]
    · exact others other item (sound.recorded other unit hunit item hitem)
  · rw [withSponsorship_expiring] at hentry
    rw [withSponsorship_hashToBlock]
    split_ifs at hentry with hthis
    · rw [if_pos hthis.2, hthis.1]
    · have hold := sound.listed n key entry hentry
      rw [if_neg]
      · exact hold
      · rintro rfl
        cases fresh.symm.trans hold

theorem sponsorContentUnitApply_cases {chain : Blockchain} {spi : SponsorContentUnit}
    {amount : Coin} {after : Documents}
    (h : docs.sponsorContentUnitApply chain spi amount hash = .ok after) :
    ∃ cusi number, sponsoredWith docs.sponsored[spi.uri]? spi.uri
        (newSponsorship spi amount hash) = .ok cusi ∧
      getExpiringBlockNumber chain (clockSeconds (sponsoredInterval spi).2) = .ok number ∧
      after = docs.withSponsorship spi.uri cusi hash number := by
  rw [sponsorContentUnitApply_eq] at h
  obtain ⟨_, h⟩ := require_bind_ok_iff.mp h
  obtain ⟨cusi, hcusi, h⟩ := bind_ok_iff.mp h
  obtain ⟨number, hnumber, h⟩ := bind_ok_iff.mp h
  exact ⟨cusi, number, hcusi, hnumber, (pure_ok_iff.mp h).symm⟩

theorem SponsorshipsSound.sponsorContentUnitApply (sound : SponsorshipsSound docs)
    (fresh : docs.hashToBlock[hash]? = none) {chain : Blockchain} {spi : SponsorContentUnit}
    {amount : Coin} {after : Documents}
    (h : docs.sponsorContentUnitApply chain spi amount hash = .ok after) :
    SponsorshipsSound after := by
  obtain ⟨cusi, number, hcusi, _, rfl⟩ := sponsorContentUnitApply_cases h
  exact sound.withSponsorship fresh rfl rfl hcusi number

theorem SponsorshipsSound.sponsorContentUnitApply_total (sound : SponsorshipsSound docs)
    (chain : Blockchain) {spi : SponsorContentUnit} (amount : Coin)
    (interval : (sponsoredInterval spi).1 < (sponsoredInterval spi).2) :
    ∃ after, docs.sponsorContentUnitApply chain spi amount hash = .ok after := by
  obtain ⟨cusi, hcusi⟩ : ∃ cusi, sponsoredWith docs.sponsored[spi.uri]? spi.uri
      (newSponsorship spi amount hash) = .ok cusi :=
    sponsoredWith_total (sound.orderly spi.uri) rfl
  obtain ⟨number, hnumber⟩ : ∃ number, getExpiringBlockNumber chain
      (clockSeconds (sponsoredInterval spi).2) = .ok number := by
    obtain ⟨genesis, hgenesis⟩ : ∃ genesis, chain.headerAt 0 = .ok genesis := by
      rw [Blockchain.headerAt, Blockchain.blockAt, List.getElem?_eq_getElem chain.length_pos]
      exact ⟨_, rfl⟩
    rw [getExpiringBlockNumber, hgenesis, ok_bind]
    split_ifs <;> exact ⟨_, rfl⟩
  rw [sponsorContentUnitApply_eq, require_true interval, ok_bind, hcusi, ok_bind, hnumber]
  exact ⟨_, rfl⟩

end

theorem filter_addSponsorship {cusi after : ContentUnitSponsoredInformation}
    {si : SponsoredInformation} (orderly : Orderly cusi) (h : addSponsorship cusi si = .ok after) :
    (after.indexSi.filter fun i => (indexEntry cusi i).isSome).Perm cusi.indexSi := by
  obtain ⟨_, h⟩ := require_bind_ok_iff.mp h
  obtain ⟨_, h⟩ := require_bind_ok_iff.mp h
  apply ((refreshIndex_perm h).filter _).trans
  rw [List.filter_filter, List.filter_append]
  have hlast : indexEntry cusi cusi.sponsoredInformations.length = none := by
    unfold indexEntry
    rw [List.getElem?_eq_none le_rfl]
  have hkept : ∀ i ∈ cusi.indexSi, (indexEntry cusi i).isSome = true := by
    intro i hi
    obtain ⟨entry, hentry⟩ := orderly.refreshed.indexed hi
    rw [hentry]
    rfl
  rw [List.filter_eq_self.mpr, List.filter_cons_of_neg (by simp [hlast]), List.filter_nil,
    List.append_nil]
  intro i hi
  have hsame : indexEntry { cusi with
      sponsoredInformations := cusi.sponsoredInformations ++
        [{ si with timePointsUsedBefore := cusi.timePointsUsed.length }]
      indexSi := cusi.indexSi ++ [cusi.sponsoredInformations.length] } i = indexEntry cusi i :=
    indexEntry_congr rfl (List.getElem?_append_left (orderly.refreshed.lt hi))
  rw [hkept i hi, Bool.true_and, hsame, hkept i hi]

theorem refreshIndex_addSponsorship {cusi after : ContentUnitSponsoredInformation}
    {si : SponsoredInformation} (orderly : Orderly cusi) (h : addSponsorship cusi si = .ok after) :
    ∃ back, refreshIndex { after with sponsoredInformations := cusi.sponsoredInformations } =
      .ok back := by
  have hperm := filter_addSponsorship orderly h
  obtain ⟨_, h⟩ := require_bind_ok_iff.mp h
  obtain ⟨_, h⟩ := require_bind_ok_iff.mp h
  obtain ⟨_, htimes, _⟩ := refreshIndex_rest h
  refine ⟨_, refreshIndex_ok_iff.mpr ⟨fun i _ item hitem => ?_, rfl⟩⟩
  rw [htimes]
  exact orderly.used item (List.mem_of_getElem? (Option.mem_def.mp hitem))

/-- A sponsorship more, taken back again, leaves the others of the unit in the order that they
had. -/
def KeepsOrder (cusi : ContentUnitSponsoredInformation) (si : SponsoredInformation) : Prop :=
  ∀ after, addSponsorship cusi si = .ok after →
    refreshIndex { after with sponsoredInformations := cusi.sponsoredInformations } = .ok cusi

section
variable {docs : Documents} {hash : String}

omit [EntrySort] in
theorem erase_insert_of_none {ν : Type} {table : Std.ExtTreeMap String ν} {key : String}
    (absent : table[key]? = none) (v : ν) : (table.insert key v).erase key = table := by
  apply Std.ExtTreeMap.ext_getElem?
  intro other
  rw [Std.ExtTreeMap.getElem?_erase, Std.ExtTreeMap.getElem?_insert]
  by_cases h : key = other
  · simp [← h, absent]
  · simp [h]

omit [EntrySort] in
theorem insert_insert_of_some {ν : Type} {table : Std.ExtTreeMap String ν} {key : String}
    {v w : ν} (present : table[key]? = some w) : (table.insert key v).insert key w = table := by
  apply Std.ExtTreeMap.ext_getElem?
  intro other
  rw [Std.ExtTreeMap.getElem?_insert, Std.ExtTreeMap.getElem?_insert]
  by_cases h : key = other
  · simp [← h, present]
  · simp [h]

theorem sponsoredWithout_sponsoredWith (sound : SponsorshipsSound docs) {uri : String}
    {si : SponsoredInformation} {cusi : ContentUnitSponsoredInformation}
    (h : sponsoredWith docs.sponsored[uri]? uri si = .ok cusi)
    (items : cusi.sponsoredInformations.dropLast = itemsOf docs.sponsored[uri]?) :
    ∃ sponsored, sponsoredWithout (docs.sponsored.insert uri cusi) uri cusi = .ok sponsored ∧
      (sponsored = docs.sponsored ↔
        ∀ before, docs.sponsored[uri]? = some before → KeepsOrder before si) := by
  unfold sponsoredWithout
  rw [items]
  cases hunit : docs.sponsored[uri]? with
  | none =>
      refine ⟨docs.sponsored, ?_, iff_of_true rfl (by simp)⟩
      change pure ((docs.sponsored.insert uri cusi).erase uri) = _
      rw [erase_insert_of_none hunit]
      rfl
  | some before =>
      rw [hunit] at h
      have orderly := sound.orderly uri before hunit
      obtain ⟨back, hback⟩ := refreshIndex_addSponsorship orderly h
      refine ⟨(docs.sponsored.insert uri cusi).insert uri back, ?_, ?_⟩
      · change (if before.sponsoredInformations = [] then _ else _) = _
        rw [if_neg orderly.items]
        change refreshIndex { cusi with sponsoredInformations := before.sponsoredInformations } >>=
          _ = _
        rw [hback, ok_bind]
        rfl
      · constructor
        · rintro hsame _ ⟨⟩ added hadded
          cases h.symm.trans hadded
          have hstored : some back = some before := by
            rw [← hunit, ← hsame, Std.ExtTreeMap.getElem?_insert_self]
          rw [hback, Option.some.inj hstored]
        · intro keeps
          cases hback.symm.trans (keeps before rfl cusi h)
          exact insert_insert_of_some hunit

/-- Taking back a sponsorship that was just applied gives the documents before it, but for the
order of the sponsorships of its unit. -/
theorem sponsorContentUnitRevert_apply_iff (sound : SponsorshipsSound docs)
    (fresh : docs.hashToBlock[hash]? = none) {chain : Blockchain} {spi : SponsorContentUnit}
    {amount : Coin} (taken : amount.toMessage = spi.amount) {after : Documents}
    (h : docs.sponsorContentUnitApply chain spi amount hash = .ok after) :
    ∃ back, after.sponsorContentUnitRevert chain spi hash = .ok back ∧
      (back = docs ↔ ∀ before, docs.sponsored[spi.uri]? = some before →
        KeepsOrder before (newSponsorship spi amount hash)) := by
  obtain ⟨cusi, number, hcusi, hnumber, rfl⟩ := sponsorContentUnitApply_cases h
  obtain ⟨orderly, hitems⟩ := sponsoredWith_spec
    (sound.orderly spi.uri) (sound.fresh_itemsOf fresh spi.uri) rfl hcusi
  have hunit : (docs.withSponsorship spi.uri cusi hash number).sponsored[spi.uri]? = some cusi :=
    Std.ExtTreeMap.getElem?_insert_self
  have hlast : lastSponsorship cusi spi hash = .ok
      { newSponsorship spi amount hash with
        timePointsUsedBefore := cusi.timePointsUsed.length } := by
    rw [lastSponsorship, hitems, List.getLast?_concat]
    dsimp only [newSponsorship]
    rw [require_true taken, ok_bind, require_true orderly.times, ok_bind, require_true rfl, ok_bind,
      require_true rfl, ok_bind, require_true rfl]
    rfl
  obtain ⟨sponsored, hwithout, hkeeps⟩ := sponsoredWithout_sponsoredWith sound hcusi
    (by rw [hitems, List.dropLast_concat])
  have hget : (docs.withSponsorship spi.uri cusi hash number).expiring.get number =
      (docs.expiring.get number).insert hash ⟨spi.uri, hash, number, 0⟩ :=
    SparseMap.get_set_self _ _ _
  have hentries : (docs.withSponsorship spi.uri cusi hash number).expirationEntryByBlock number =
      .ok ((docs.expiring.get number).insert hash ⟨spi.uri, hash, number, 0⟩) := by
    rw [expirationEntryByBlock, require_true, ok_bind, hget]
    · rfl
    · rw [SparseMap.contains_iff, hget]
      exact Std.ExtTreeMap.insert_ne_empty
  have hcheck : checkExpiration ((docs.expiring.get number).insert hash
      ⟨spi.uri, hash, number, 0⟩) spi hash number = .ok () := by
    rw [checkExpiration, Std.ExtTreeMap.getElem?_insert_self]
    dsimp only
    rw [require_true rfl, ok_bind, require_true rfl, ok_bind, require_true rfl, ok_bind,
      require_true rfl]
  have hexpiring : (docs.withSponsorship spi.uri cusi hash number).expiring.set number
      (((docs.expiring.get number).insert hash ⟨spi.uri, hash, number, 0⟩).erase hash) =
      docs.expiring := by
    rw [erase_insert_of_none (sound.fresh_entry fresh number)]
    exact SparseMap.set_undo _ _ _
  have hhash : (docs.withSponsorship spi.uri cusi hash number).hashToBlock.erase hash =
      docs.hashToBlock := erase_insert_of_none fresh number
  have hdocs : { docs with sponsored } = docs ↔ sponsored = docs.sponsored :=
    ⟨congrArg Documents.sponsored, fun (hsame : sponsored = docs.sponsored) => by
      rw [hsame]⟩
  refine ⟨{ docs with sponsored }, ?_, hdocs.trans hkeeps⟩
  rw [sponsorContentUnitRevert, hunit]
  dsimp only
  rw [hlast, ok_bind]
  change (sponsoredWithout (docs.sponsored.insert spi.uri cusi) spi.uri cusi >>= _) = _
  rw [hwithout, ok_bind]
  change (getExpiringBlockNumber chain (clockSeconds (sponsoredInterval spi).2) >>= _) = _
  rw [hnumber, ok_bind, hentries, ok_bind]
  change (checkExpiration _ spi hash number >>= _) = _
  rw [hcheck, ok_bind]
  change Except.ok { docs.withSponsorship spi.uri cusi hash number with
    sponsored := sponsored
    expiring := (docs.withSponsorship spi.uri cusi hash number).expiring.set number
      (((docs.expiring.get number).insert hash ⟨spi.uri, hash, number, 0⟩).erase hash)
    hashToBlock := (docs.withSponsorship spi.uri cusi hash number).hashToBlock.erase hash } = _
  rw [hexpiring, hhash]
  rfl

omit [EntrySort] in
theorem lastSponsorship_spec {cusi : ContentUnitSponsoredInformation} {spi : SponsorContentUnit}
    {si : SponsoredInformation} (h : lastSponsorship cusi spi hash = .ok si) :
    cusi.sponsoredInformations.getLast? = some si ∧ cusi.timePointsUsed ≠ [] ∧
      si.transactionHash = hash := by
  unfold lastSponsorship at h
  cases hlast : cusi.sponsoredInformations.getLast? with
  | none => simp [hlast] at h
  | some last =>
      simp only [hlast] at h
      obtain ⟨_, h⟩ := require_bind_ok_iff.mp h
      obtain ⟨htimes, h⟩ := require_bind_ok_iff.mp h
      obtain ⟨_, h⟩ := require_bind_ok_iff.mp h
      obtain ⟨hhash, h⟩ := require_bind_ok_iff.mp h
      obtain ⟨_, h⟩ := require_bind_ok_iff.mp h
      cases pure_ok_iff.mp h
      exact ⟨rfl, htimes, hhash⟩

theorem orderly_dropLast {cusi after : ContentUnitSponsoredInformation} (orderly : Orderly cusi)
    (rest : cusi.sponsoredInformations.dropLast ≠ [])
    (h : refreshIndex { cusi with
      sponsoredInformations := cusi.sponsoredInformations.dropLast } = .ok after) :
    Orderly after ∧ after.sponsoredInformations = cusi.sponsoredInformations.dropLast := by
  refine ⟨orderly_of_refreshIndex h rest orderly.times ?_ ?_ orderly.nodup,
    (refreshIndex_rest h).1⟩
  · intro item hitem
    exact orderly.used item (List.dropLast_subset _ hitem)
  · exact List.Sublist.nodup ((List.dropLast_sublist _).map _) orderly.differ

omit [EntrySort] in
theorem HashesDiffer.dropLast_ne {items : List SponsoredInformation} {last : SponsoredInformation}
    (differ : HashesDiffer items) (hlast : items.getLast? = some last) :
    ∀ item ∈ items.dropLast, item.transactionHash ≠ last.transactionHash := by
  intro item hitem
  have hsplit := List.dropLast_append_getLast? last (Option.mem_def.mpr hlast)
  unfold HashesDiffer at differ
  rw [← hsplit, List.map_append, List.nodup_append] at differ
  exact differ.2.2 _ (List.mem_map_of_mem hitem) _ (List.mem_map_of_mem List.mem_cons_self)

/-- A sponsorship that is taken back leaves the sponsorships sound. -/
theorem SponsorshipsSound.sponsorContentUnitRevert (sound : SponsorshipsSound docs)
    {chain : Blockchain} {spi : SponsorContentUnit} {after : Documents}
    (h : docs.sponsorContentUnitRevert chain spi hash = .ok after) : SponsorshipsSound after := by
  unfold Documents.sponsorContentUnitRevert at h
  cases hunit : docs.sponsored[spi.uri]? with
  | none => simp [hunit] at h
  | some cusi =>
      have orderly := sound.orderly spi.uri cusi hunit
      simp only [hunit] at h
      obtain ⟨si, hsi, h⟩ := bind_ok_iff.mp h
      obtain ⟨sponsored, hsponsored, h⟩ := bind_ok_iff.mp h
      obtain ⟨number, _, h⟩ := bind_ok_iff.mp h
      obtain ⟨entries, hentries, h⟩ := bind_ok_iff.mp h
      obtain ⟨_, hcheck, h⟩ := bind_ok_iff.mp h
      obtain ⟨hlast, _, rfl⟩ := lastSponsorship_spec hsi
      obtain ⟨_, hentries⟩ := require_bind_ok_iff.mp hentries
      cases pure_ok_iff.mp hentries
      have hnumber : docs.hashToBlock[si.transactionHash]? = some number := by
        unfold checkExpiration at hcheck
        cases hentry : (docs.expiring.get number)[si.transactionHash]? with
        | none => simp [hentry] at hcheck
        | some entry => exact sound.listed number si.transactionHash entry hentry
      cases pure_ok_iff.mp h
      -- what stays of the unit, and of the others
      have hleft : ∀ (uri : String) unit, sponsored[uri]? = some unit → Orderly unit ∧
          ∀ item ∈ unit.sponsoredInformations, item.transactionHash ≠ si.transactionHash ∧
            Recorded docs uri item := by
        have hrecorded := sound.recorded spi.uri cusi hunit si (List.mem_of_getLast? hlast)
        have hothers : ∀ (uri : String) unit, uri ≠ spi.uri → docs.sponsored[uri]? = some unit →
            Orderly unit ∧ ∀ item ∈ unit.sponsoredInformations,
              item.transactionHash ≠ si.transactionHash ∧ Recorded docs uri item := by
          intro uri unit hne hother
          refine ⟨sound.orderly uri unit hother, fun item hitem => ?_⟩
          have h := sound.recorded uri unit hother item hitem
          exact ⟨fun hsame => hne (h.uri_eq hrecorded hsame), h⟩
        intro uri unit hstored
        unfold sponsoredWithout at hsponsored
        split_ifs at hsponsored with hempty
        · cases pure_ok_iff.mp hsponsored
          rw [Std.ExtTreeMap.getElem?_erase] at hstored
          split_ifs at hstored with huri
          exact hothers uri unit (fun h => huri (by simp [h])) hstored
        · obtain ⟨rest, hrest, hsponsored⟩ := bind_ok_iff.mp hsponsored
          cases pure_ok_iff.mp hsponsored
          rw [Std.ExtTreeMap.getElem?_insert] at hstored
          split_ifs at hstored with huri
          · cases hstored
            obtain ⟨hrestOrderly, hrestItems⟩ := orderly_dropLast orderly hempty hrest
            have huri : spi.uri = uri := by simpa using huri
            refine ⟨hrestOrderly, fun item hitem => ?_⟩
            rw [hrestItems] at hitem
            exact ⟨orderly.differ.dropLast_ne hlast item hitem,
              huri ▸ sound.recorded spi.uri cusi hunit item (List.dropLast_subset _ hitem)⟩
          · exact hothers uri unit (fun h => huri (by simp [h])) hstored
      refine ⟨fun uri unit hstored => (hleft uri unit hstored).1,
        fun uri unit hstored item hitem => ?_, fun n key entry hentry => ?_⟩
      · obtain ⟨hne, hrecorded⟩ := (hleft uri unit hstored).2 item hitem
        refine hrecorded.congr ?_ fun n => ?_
        · change (docs.hashToBlock.erase si.transactionHash)[item.transactionHash]? = _
          rw [Std.ExtTreeMap.getElem?_erase]
          simp [hne.symm]
        · change ((docs.expiring.set number _).get n)[item.transactionHash]? = _
          rw [SparseMap.get_set]
          split_ifs with hn
          · rw [Std.ExtTreeMap.getElem?_erase, hn]
            simp [hne.symm]
          · rfl
      · change (docs.hashToBlock.erase si.transactionHash)[key]? = some n
        change ((docs.expiring.set number _).get n)[key]? = some entry at hentry
        rw [SparseMap.get_set] at hentry
        rw [Std.ExtTreeMap.getElem?_erase]
        split_ifs at hentry with hn
        · rw [Std.ExtTreeMap.getElem?_erase] at hentry
          split_ifs at hentry with hkey
          rw [if_neg hkey]
          exact sound.listed n key entry (hn ▸ hentry)
        · have hold := sound.listed n key entry hentry
          rw [if_neg]
          · exact hold
          · intro hkey
            have hkey : si.transactionHash = key := by simpa using hkey
            rw [← hkey, hnumber] at hold
            exact hn (Option.some.inj hold)

end

def markPlace (index : ℕ) (cancelled : Bool) (p : ℕ × SponsoredInformation) :
    ℕ × SponsoredInformation :=
  if p.1 = index then (p.1, { p.2 with cancelled }) else p

omit [EntrySort] in
/-- A mark changes nothing of the walk but the sponsorship that it is put on. -/
theorem reached_withMark {cusi : ContentUnitSponsoredInformation} {index : ℕ}
    {item : SponsoredInformation} (there : cusi.sponsoredInformations[index]? = some item)
    (cancelled : Bool) (endTp : ℤ) :
    reached (withMark cusi index item cancelled).sponsoredInformations cusi.indexSi endTp =
      (reached cusi.sponsoredInformations cusi.indexSi endTp).map (markPlace index cancelled) := by
  have hplaces : (cusi.indexSi.filterMap fun i =>
      (withMark cusi index item cancelled).sponsoredInformations[i]?.map (i, ·)) =
      (cusi.indexSi.filterMap fun i => cusi.sponsoredInformations[i]?.map (i, ·)).map
        (markPlace index cancelled) := by
    rw [List.map_filterMap]
    congr 1
    funext i
    rw [withMark_getElem? there]
    split_ifs with h
    · subst h
      rw [there]
      simp [markPlace]
    · cases cusi.sponsoredInformations[i]? with
      | none => rfl
      | some other => simp [markPlace, Ne.symm h]
  have hstart : ((fun p : ℕ × SponsoredInformation => decide (p.2.startTimePoint < endTp)) ∘
      markPlace index cancelled) = fun p => decide (p.2.startTimePoint < endTp) := by
    funext p
    unfold markPlace
    dsimp only [Function.comp_apply]
    split_ifs <;> rfl
  rw [reached, hplaces, List.takeWhile_map, hstart]
  rfl

omit [EntrySort] in
theorem target_withMark {cusi : ContentUnitSponsoredInformation} {index : ℕ}
    {item : SponsoredInformation} (there : cusi.sponsoredInformations[index]? = some item)
    (cancelled : Bool) (endTp : ℤ) (hash : String) :
    target (withMark cusi index item cancelled).sponsoredInformations cusi.indexSi endTp hash =
      (target cusi.sponsoredInformations cusi.indexSi endTp hash).map
        (markPlace index cancelled) := by
  have hfind : ((fun p : ℕ × SponsoredInformation => decide (p.2.transactionHash = hash)) ∘
      markPlace index cancelled) = fun p => decide (p.2.transactionHash = hash) := by
    funext p
    unfold markPlace
    dsimp only [Function.comp_apply]
    split_ifs <;> rfl
  rw [target, reached_withMark there, List.find?_map, hfind]
  rfl

omit [EntrySort] in
theorem unpaid_withMark {cusi : ContentUnitSponsoredInformation} {endTp : ℤ} {hash : String}
    {u : Unpaid} (h : unpaid cusi endTp hash = .ok (some u)) (cancelled : Bool) :
    unpaid (withMark cusi u.index u.item cancelled) endTp hash =
      .ok (some { u with item := { u.item with cancelled } }) := by
  obtain ⟨htarget, hlate, hpart, hpaid⟩ := unpaid_some h
  have hthere := (Unpaid.item_of_unpaid h).1
  have hmarked := target_withMark hthere cancelled endTp hash
  have hplace : markPlace u.index cancelled (u.index, u.item) =
      (u.index, { u.item with cancelled }) := if_pos rfl
  rw [htarget, Option.map_some, hplace] at hmarked
  have hindex : (withMark cusi u.index u.item cancelled).indexSi = cusi.indexSi := rfl
  rw [unpaid, hindex, hmarked]
  change (if lastUsed cusi < endTp then
    paidPart u.item (paidUntil cusi u.item) u.item.endTimePoint >>= _ else _) = _
  rw [if_pos hlate, hpaid, ok_bind, if_neg hpart]
  rfl

omit [EntrySort] in
theorem settled_settled {docs : Documents} {uri : String} {cusi : ContentUnitSponsoredInformation}
    (stored : docs.sponsored[uri]? = some cusi) {u : Unpaid}
    (there : cusi.sponsoredInformations[u.index]? = some u.item) {number : ℕ}
    (entry : (docs.expiring.get number)[u.item.transactionHash]? =
      some ⟨uri, u.item.transactionHash, number, 0⟩) (keeps : u.item.cancelled = false)
    (manual : String) (manuallyCancelled : Coin) :
    (docs.settled uri cusi u ⟨uri, u.item.transactionHash, number, 0⟩ manual true).settled uri
      (withMark cusi u.index u.item true)
      { u with item := { u.item with cancelled := true } }
      ⟨uri, u.item.transactionHash, number, manuallyCancelled⟩ manual false = docs := by
  have hback : withMark (withMark cusi u.index u.item true) u.index
      { u.item with cancelled := true } false = cusi := by
    have hitem : ({ u.item with cancelled := false } : SponsoredInformation) = u.item := by
      rw [← keeps]
    obtain ⟨hlt, hget⟩ := List.getElem?_eq_some_iff.mp there
    have hset : cusi.sponsoredInformations.set u.index u.item = cusi.sponsoredInformations := by
      rw [← hget, List.set_getElem_self]
    unfold withMark
    dsimp only
    rw [List.set_set, hitem, hset]
  have hsponsored : (docs.sponsored.insert uri (withMark cusi u.index u.item true)).insert uri
      cusi = docs.sponsored := insert_insert_of_some stored
  unfold settled
  dsimp only
  rw [hback, hsponsored]
  by_cases hmanual : manual ≠ ""
  · simp only [hmanual, ne_eq, not_false_eq_true, if_true, Bool.false_eq_true, if_false,
      SparseMap.get_set_self, SparseMap.set_set]
    rw [insert_insert_of_some entry, SparseMap.set_get]
  · simp only [if_neg hmanual]

/-- Paying out a sponsorship is taken back by the call that reverts it. -/
theorem payUnpaid_undo {docs : Documents} {uri : String} {cusi : ContentUnitSponsoredInformation}
    (stored : docs.sponsored[uri]? = some cusi) {u : Unpaid}
    (there : cusi.sponsoredInformations[u.index]? = some u.item) {number : ℕ}
    (listed : docs.hashToBlock[u.item.transactionHash]? = some number)
    (found : docs.expirationEntryByHash u.item.transactionHash =
      .ok ⟨uri, u.item.transactionHash, number, 0⟩) (keeps : u.item.cancelled = false)
    (part : u.part ≠ 0) {call : SetUsedCall} (type : call.type = .revert)
    (real : call.pretend = false)
    (sponsor : call.manualByAccount ≠ "" → u.item.sponsorAddress = call.manualByAccount) :
    (docs.settled uri cusi u ⟨uri, u.item.transactionHash, number, 0⟩ call.manualByAccount
      true).payUnpaid call uri (withMark cusi u.index u.item true)
      { u with item := { u.item with cancelled := true } } = .ok (docs, [u.payment]) := by
  obtain ⟨_, hnumber, hentry⟩ := expirationEntryByHash_ok_iff.mp found
  cases listed.symm.trans hnumber
  have hmarked : (docs.settled uri cusi u ⟨uri, u.item.transactionHash, number, 0⟩
      call.manualByAccount true).sponsored[uri]? = some (withMark cusi u.index u.item true) :=
    Std.ExtTreeMap.getElem?_insert_self
  have hnew : (docs.settled uri cusi u ⟨uri, u.item.transactionHash, number, 0⟩
      call.manualByAccount true).expirationEntryByHash u.item.transactionHash =
      .ok ⟨uri, u.item.transactionHash, number, if call.manualByAccount ≠ "" then u.part else 0⟩ := by
    rw [expirationEntryByHash_ok_iff]
    refine ⟨number, listed, ?_⟩
    rw [settled_expiring]
    by_cases hsigned : call.manualByAccount ≠ ""
    · rw [if_pos ⟨hsigned, rfl, rfl⟩, if_pos hsigned]
      rfl
    · rw [if_neg fun h => hsigned h.1, if_neg hsigned]
      exact hentry
  have hagree : call.manualByAccount ≠ "" ↔
      (if call.manualByAccount ≠ "" then u.part else 0) ≠ 0 := by
    by_cases hsigned : call.manualByAccount ≠ ""
    · rw [if_pos hsigned]
      exact iff_of_true hsigned part
    · rw [if_neg hsigned]
      exact iff_of_false hsigned (not_not.mpr rfl)
  rw [payUnpaid_eq (u := { u with item := { u.item with cancelled := true } }) hmarked listed hnew,
    if_neg fun h => h.2 (sponsor h.1)]
  simp only [type, reduceCtorEq, false_and, if_false, true_and, Bool.true_eq_false, decide_false,
    real, Bool.false_eq_true]
  rw [if_neg (not_not.mpr hagree)]
  exact congrArg (fun d => Except.ok (d, [u.payment]))
    (settled_settled stored there hentry keeps call.manualByAccount _)

/-- Taking back a cancellation that was just applied gives the documents before it. -/
theorem setUsed_undo {docs after : Documents} (sound : SponsorshipsSound docs) {uri : String}
    {chain : Blockchain} {blockNumber : ℕ} (near : NextTo chain blockNumber) {hash : String}
    (named : hash ≠ "") {manual : String} {payments : List SponsorPayment}
    (h : docs.sponsoredContentUnitSetUsed chain uri blockNumber .apply hash manual false =
      .ok (after, payments)) :
    after.sponsoredContentUnitSetUsed chain uri blockNumber .revert hash manual false =
      .ok (docs, payments) := by
  have soundAfter := sound.setUsed h
  rw [setUsed_hash (sound.orderly uri) near .apply named] at h
  rw [setUsed_hash (soundAfter.orderly uri) near .revert named]
  cases hunit : docs.sponsored[uri]? with
  | none =>
      rw [hunit] at h
      cases h
      rw [hunit]
  | some cusi =>
      rw [hunit] at h
      obtain ⟨u, hu, h⟩ := bind_ok_iff.mp h
      cases u with
      | none =>
          cases h
          rw [hunit]
          dsimp only
          rw [hu]
          rfl
      | some u =>
          obtain ⟨hitem, hhash⟩ := Unpaid.item_of_unpaid hu
          obtain ⟨number, manuallyCancelled, hnumber, hentry, _⟩ :=
            (sound.recorded uri cusi hunit u.item (List.mem_of_getElem? hitem)).entry
          rcases payUnpaid_cases hunit hnumber hentry h with
            ⟨hpretend, _⟩ | ⟨hsponsor, happly, _, rfl, hafter⟩
          · cases hpretend
          obtain ⟨hkeeps, rfl⟩ := happly rfl
          replace hafter : after = docs.settled uri cusi u
            ⟨uri, u.item.transactionHash, number, 0⟩ manual true := hafter
          have hmarked : after.sponsored[uri]? = some (withMark cusi u.index u.item true) := by
            rw [hafter]
            exact Std.ExtTreeMap.getElem?_insert_self
          rw [hmarked]
          dsimp only
          rw [unpaid_withMark hu, ok_bind]
          dsimp only
          rw [hafter]
          exact payUnpaid_undo hunit hitem hnumber hentry hkeeps (unpaid_some hu).2.2.1 rfl rfl
            hsponsor

end

theorem keepsOrder {cusi : ContentUnitSponsoredInformation} (orderly : Orderly cusi)
    (si : SponsoredInformation) : KeepsOrder cusi si := by
  intro after h
  have hperm := filter_addSponsorship orderly h
  obtain ⟨_, h⟩ := require_bind_ok_iff.mp h
  obtain ⟨_, h⟩ := require_bind_ok_iff.mp h
  obtain ⟨_, htimes, huri⟩ := refreshIndex_rest h
  have hback : ({ after with sponsoredInformations := cusi.sponsoredInformations } :
      ContentUnitSponsoredInformation) = { cusi with indexSi := after.indexSi } := by
    rw [htimes, huri]
  rw [hback]
  exact orderly.refreshed.of_perm hperm

theorem sponsorContentUnitRevert_apply {docs after : Documents} {hash : String}
    (sound : SponsorshipsSound docs) (fresh : docs.hashToBlock[hash]? = none) {chain : Blockchain}
    {spi : SponsorContentUnit} {amount : Coin} (taken : amount.toMessage = spi.amount)
    (h : docs.sponsorContentUnitApply chain spi amount hash = .ok after) :
    after.sponsorContentUnitRevert chain spi hash = .ok docs := by
  obtain ⟨back, hback, hkeeps⟩ := sponsorContentUnitRevert_apply_iff sound fresh taken h
  rw [hback, hkeeps.mpr fun before stored => keepsOrder (sound.orderly _ before stored) _]

end Publiq.Documents
