import Publiq.Common
import Publiq.Foundation.UnorderedMap

/-! `libstorage_utility/rpc.cpp`: the orders that a channel signs for its clients, kept
to be sent again, and the check that a storage and the channel make of them. -/
namespace Publiq
open Message Checked

/-- `StorageUtilityMessage::StorageOrder`. -/
structure StorageOrder where
  storageAddress : String
  fileUri : String
  contentUnitUri : String
  sessionId : String
  seconds : UInt64
  timePoint : ℤ
  deriving DecidableEq

/-- `StorageUtilityMessage::SignedStorageOrder`. -/
structure SignedStorageOrder where
  order : StorageOrder
  authorization : Authority
  deriving DecidableEq

/-- `StorageUtilityMessage::SignRequest`. -/
structure SignRequest where
  privateKey : String
  order : StorageOrder
  deriving DecidableEq

/-- What `mesh.pp` and the generated serialiser compute for an order. -/
class OrderExternals where
  /-- The constructor of `private_key` and `get_public_key`. -/
  publicKeyOf : String → Checked String
  /-- `private_key::sign`. -/
  sign : (privateKey message : String) → String
  /-- `meshpp::verify_signature`. -/
  verifySignature : (publicKey message signature : String) → Bool
  /-- `StorageOrder::to_string`. -/
  orderToString : StorageOrder → String

def OrderExternals.SignsTruly [OrderExternals] : Prop :=
  ∀ privateKey address message, publicKeyOf privateKey = .ok address →
    verifySignature address message (sign privateKey message) = true

/-- `SIGN_SECONDS`. -/
def signSeconds : UInt64 := 3600

namespace StorageOrder

/-- `chrono::seconds(NODES_TIME_SHIFT)`, in nanoseconds. -/
def shift : ℤ := nodesTimeShift * 1000000000

/-- `from_time_t(order.time_point.tm)`. -/
def signedTimePoint (order : StorageOrder) : ℤ := fromTimeT order.timePoint

/-- `from_time_t(order.time_point.tm) + chrono::seconds(order.seconds)`. -/
def expiringTimePoint (order : StorageOrder) : ℤ :=
  order.signedTimePoint + fromTimeT order.seconds.toNat

/-- `cache_key`. -/
structure CacheKey where
  authorityAddress : String
  fileUri : String
  contentUnitUri : String
  sessionId : String
  deriving DecidableEq

def cacheKey (address : String) (order : StorageOrder) : CacheKey :=
  ⟨address, order.fileUri, order.contentUnitUri, order.sessionId⟩

/-- `cache_signed_storage_order`. -/
abbrev Cache := UnorderedMap CacheKey SignedStorageOrder

/-- `have_cache`: an order that has not expired. -/
def haveCache (now : ℤ) (cached : SignedStorageOrder) : Prop :=
  now + shift < cached.order.expiringTimePoint

instance (now : ℤ) (cached : SignedStorageOrder) : Decidable (haveCache now cached) :=
  inferInstanceAs (Decidable (_ < _))

def outOfSync (now : ℤ) (order : StorageOrder) : Prop :=
  now + shift < order.signedTimePoint ∨ order.signedTimePoint < now - shift

instance (now : ℤ) (order : StorageOrder) : Decidable (outOfSync now order) :=
  inferInstanceAs (Decidable (_ ∨ _))

variable [OrderExternals]

def sign (request : SignRequest) (address : String) : SignedStorageOrder :=
  { order := request.order
    authorization :=
      ⟨address, OrderExternals.sign request.privateKey
        (OrderExternals.orderToString request.order)⟩ }

/-- `rpc::run` for a `SignRequest`: the order that is sent back, and the cache. -/
def signRequest (now : ℤ) (request : SignRequest) (cache : Cache) :
    Checked (SignedStorageOrder × Cache) := do
  let address ← OrderExternals.publicKeyOf request.privateKey
  require (request.order.seconds = signSeconds)
    (.runtimeError "can sign only for 3600 seconds")
  require (¬ outOfSync now request.order) (.runtimeError "out of sync")
  let signed := sign request address
  match cache.find? (cacheKey address request.order) with
  | some cached =>
      if haveCache now cached then pure (cached, cache)
      else pure (signed, cache.assign (cacheKey address request.order) signed)
  | none => pure (signed, cache.assign (cacheKey address request.order) signed)

/-- `rpc::run` for its timer, which reads the clock again at every order. -/
def dropExpired (now : CacheKey → ℤ) (cache : Cache) : Cache :=
  cache.filterMap fun key cached =>
    if cached.order.expiringTimePoint ≤ now key - shift then none else some cached

/-- `rpc::verify_storage_order`, of the order that the token holds. -/
def verifyStorageOrder (now : ℤ) (signed : SignedStorageOrder) : Bool :=
  if signed.order.seconds ≠ signSeconds then false
  else if now + shift < signed.order.signedTimePoint ∨
      signed.order.expiringTimePoint ≤ now - shift then false
  else OrderExternals.verifySignature signed.authorization.address
    (OrderExternals.orderToString signed.order) signed.authorization.signature

/-- An answer to a request that serves it: everything that was asked for, signed by the
key of the request, and good at this moment. -/
structure Answers (now : ℤ) (request : SignRequest) (signed : SignedStorageOrder) : Prop where
  authority : OrderExternals.publicKeyOf request.privateKey = .ok signed.authorization.address
  storageAddress : signed.order.storageAddress = request.order.storageAddress
  fileUri : signed.order.fileUri = request.order.fileUri
  contentUnitUri : signed.order.contentUnitUri = request.order.contentUnitUri
  sessionId : signed.order.sessionId = request.order.sessionId
  accepted : verifyStorageOrder now signed = true

end StorageOrder

/-- What happens to the server of signatures, with the clock read at that moment. -/
inductive OrderEvent where
  | request (now : ℤ) (request : SignRequest)
  | timer (now : StorageOrder.CacheKey → ℤ)

namespace StorageOrder

section
variable [OrderExternals]

def cacheStep (cache : Cache) : OrderEvent → Cache
  | .request now request =>
      match signRequest now request cache with
      | .ok (_, cache') => cache'
      | .error _ => cache
  | .timer now => dropExpired now cache

def cacheAfter (events : List OrderEvent) : Cache := events.foldl cacheStep ∅

/-- A request that the server signs, under the public key of the address. -/
structure Acceptable (now : ℤ) (request : SignRequest) (address : String) : Prop where
  key : OrderExternals.publicKeyOf request.privateKey = .ok address
  seconds : request.order.seconds = signSeconds
  inSync : ¬ outOfSync now request.order

/-- The order that is kept for a request and has not expired, if there is one. -/
def kept (now : ℤ) (request : SignRequest) (address : String) (cache : Cache) :
    Option SignedStorageOrder :=
  (cache.find? (cacheKey address request.order)).filter fun cached => haveCache now cached

/-- The answer is the order that is kept, else a new one that is kept from now on. -/
theorem signRequest_ok_iff {now : ℤ} {request : SignRequest} {cache cache' : Cache}
    {signed : SignedStorageOrder} :
    signRequest now request cache = .ok (signed, cache') ↔
      ∃ address, Acceptable now request address ∧
        match kept now request address cache with
        | some cached => signed = cached ∧ cache' = cache
        | none => signed = sign request address ∧
            cache' = cache.assign (cacheKey address request.order) (sign request address) := by
  unfold signRequest
  rw [bind_ok_iff]
  refine exists_congr fun address => ?_
  rw [require_bind_ok_iff, require_bind_ok_iff]
  have acceptable : (OrderExternals.publicKeyOf request.privateKey = .ok address ∧
      request.order.seconds = signSeconds ∧ ¬ outOfSync now request.order) ↔
      Acceptable now request address :=
    ⟨fun ⟨key, seconds, inSync⟩ => ⟨key, seconds, inSync⟩,
      fun h => ⟨h.key, h.seconds, h.inSync⟩⟩
  rw [← acceptable, and_assoc, and_assoc]
  refine and_congr_right fun _ => and_congr_right fun _ => and_congr_right fun _ => ?_
  have sent : ∀ a b, (pure (a, b) : Checked (SignedStorageOrder × Cache)) =
      .ok (signed, cache') ↔ signed = a ∧ cache' = b := by
    intro a b
    rw [pure_ok_iff, Prod.mk.injEq, eq_comm, eq_comm (a := b)]
  unfold kept
  cases cache.find? (cacheKey address request.order) with
  | none => exact sent _ _
  | some cached =>
      by_cases have_cache : haveCache now cached
      · rw [Option.filter_some_pos (by simpa using have_cache)]
        simp only [if_pos have_cache]
        exact sent _ _
      · rw [Option.filter_some_neg (by simpa using have_cache)]
        simp only [if_neg have_cache]
        exact sent _ _

/-- Every order that is kept was signed for its key, and for the full time. -/
def Sound (cache : Cache) : Prop :=
  ∀ key cached, cache.find? key = some cached →
    cacheKey cached.authorization.address cached.order = key ∧
      cached.order.seconds = signSeconds ∧
      OrderExternals.verifySignature cached.authorization.address
        (OrderExternals.orderToString cached.order) cached.authorization.signature = true

theorem Sound.step (truly : OrderExternals.SignsTruly) {cache : Cache} (sound : Sound cache)
    (event : OrderEvent) : Sound (cacheStep cache event) := by
  cases event with
  | timer now =>
      intro key cached found
      rw [cacheStep, dropExpired, UnorderedMap.find?_filterMap] at found
      obtain ⟨before, foundBefore, stays⟩ := Option.bind_eq_some_iff.mp found
      have same : before = cached := by
        split_ifs at stays
        exact Option.some.inj stays
      exact sound key cached (same ▸ foundBefore)
  | request now request =>
      cases answer : signRequest now request cache with
      | error failure =>
          rw [cacheStep, answer]
          exact sound
      | ok next =>
          obtain ⟨signed, cache'⟩ := next
          obtain ⟨address, acceptable, stored⟩ := signRequest_ok_iff.mp answer
          rw [cacheStep, answer]
          cases have_cache : kept now request address cache with
          | some cached =>
              rw [have_cache] at stored
              exact stored.2 ▸ sound
          | none =>
              rw [have_cache] at stored
              intro key cached found
              simp only [stored.2] at found
              rw [UnorderedMap.find?_assign] at found
              by_cases same : key = cacheKey address request.order
              · rw [if_pos same] at found
                cases found
                exact ⟨same.symm, acceptable.seconds, truly _ _ _ acceptable.key⟩
              · rw [if_neg same] at found
                exact sound key cached found

theorem sound_cacheAfter (truly : OrderExternals.SignsTruly) (events : List OrderEvent) :
    Sound (cacheAfter events) := by
  have run : ∀ cache, Sound cache → Sound (events.foldl cacheStep cache) := by
    induction events with
    | nil => exact fun _ sound => sound
    | cons event events ih => exact fun cache sound => ih _ (sound.step truly event)
  refine run ∅ ?_
  intro key cached found
  rw [UnorderedMap.find?_empty] at found
  cases found

omit [OrderExternals] in
theorem fromTimeT_signSeconds : fromTimeT signSeconds.toNat = 3600000000000 := by decide

theorem answers_sign (truly : OrderExternals.SignsTruly) {now : ℤ} {request : SignRequest}
    {address : String} (acceptable : Acceptable now request address) :
    Answers now request (sign request address) := by
  refine ⟨acceptable.key, rfl, rfl, rfl, rfl, ?_⟩
  have dated : ¬ (now + shift < request.order.signedTimePoint ∨
      request.order.expiringTimePoint ≤ now - shift) := by
    have inSync := acceptable.inSync
    unfold outOfSync at inSync
    rw [expiringTimePoint, acceptable.seconds, fromTimeT_signSeconds]
    omega
  change (if request.order.seconds ≠ signSeconds then false
    else if now + shift < request.order.signedTimePoint ∨
      request.order.expiringTimePoint ≤ now - shift then false else _) = true
  rw [if_neg (not_not.mpr acceptable.seconds), if_neg dated]
  exact truly _ _ _ acceptable.key

/-- An order that is kept answers a request exactly when it names the storage of the
request and is not dated after the clock. -/
theorem answers_kept_iff {now : ℤ} {request : SignRequest} {address : String} {cache : Cache}
    (sound : Sound cache) (acceptable : Acceptable now request address)
    {cached : SignedStorageOrder} (have_cache : kept now request address cache = some cached) :
    Answers now request cached ↔
      cached.order.storageAddress = request.order.storageAddress ∧
        cached.order.signedTimePoint ≤ now + shift := by
  obtain ⟨found, unexpired⟩ := Option.filter_eq_some_iff.mp have_cache
  have unexpired : haveCache now cached := by simpa using unexpired
  unfold haveCache at unexpired
  obtain ⟨key, seconds, signature⟩ := sound _ cached found
  obtain ⟨authority, fileUri, contentUnitUri, sessionId⟩ := CacheKey.mk.inj key
  have verified : verifyStorageOrder now cached = true ↔
      cached.order.signedTimePoint ≤ now + shift := by
    have stays : ¬ cached.order.expiringTimePoint ≤ now - shift := by
      have : (0 : ℤ) ≤ shift := by decide
      omega
    rw [verifyStorageOrder, if_neg (not_not.mpr seconds)]
    simp only [stays, or_false]
    by_cases late : now + shift < cached.order.signedTimePoint
    · simp [late]
    · simp [late, signature, not_lt.mp late]
  constructor
  · intro answers
    exact ⟨answers.storageAddress, verified.mp answers.accepted⟩
  · rintro ⟨storageAddress, dated⟩
    exact ⟨authority ▸ acceptable.key, storageAddress, fileUri, contentUnitUri, sessionId,
      verified.mpr dated⟩

/-- The order that is kept for a request, if the server signs that, names the storage of
the request and is not dated after the clock. -/
def KeptForIt (now : ℤ) (request : SignRequest) (cache : Cache) : Prop :=
  ∀ address, Acceptable now request address →
    ∀ cached, kept now request address cache = some cached →
      cached.order.storageAddress = request.order.storageAddress ∧
        cached.order.signedTimePoint ≤ now + shift

theorem answers_step_iff (truly : OrderExternals.SignsTruly) {cache : Cache}
    (sound : Sound cache) (now : ℤ) (request : SignRequest) :
    (∀ signed cache', signRequest now request cache = .ok (signed, cache') →
      Answers now request signed) ↔ KeptForIt now request cache := by
  constructor
  · intro answers address acceptable cached have_cache
    refine (answers_kept_iff sound acceptable have_cache).mp (answers cached cache ?_)
    refine signRequest_ok_iff.mpr ⟨address, acceptable, ?_⟩
    rw [have_cache]
    exact ⟨rfl, rfl⟩
  · intro own signed cache' answer
    obtain ⟨address, acceptable, stored⟩ := signRequest_ok_iff.mp answer
    cases have_cache : kept now request address cache with
    | some cached =>
        rw [have_cache] at stored
        rw [stored.1]
        exact (answers_kept_iff sound acceptable have_cache).mpr
          (own address acceptable cached have_cache)
    | none =>
        rw [have_cache] at stored
        rw [stored.1]
        exact answers_sign truly acceptable

/-- Every answer of a run serves its request exactly when every request finds nothing
kept, or an order for its own storage that is not dated after the clock. -/
theorem answers_iff_kept_for_it (truly : OrderExternals.SignsTruly)
    (events : List OrderEvent) :
    (∀ before now request after, events = before ++ .request now request :: after →
      ∀ signed cache', signRequest now request (cacheAfter before) = .ok (signed, cache') →
        Answers now request signed) ↔
    ∀ before now request after, events = before ++ .request now request :: after →
      KeptForIt now request (cacheAfter before) := by
  constructor
  · intro answers before now request after split
    exact (answers_step_iff truly (sound_cacheAfter truly before) now request).mp
      (answers before now request after split)
  · intro own before now request after split
    exact (answers_step_iff truly (sound_cacheAfter truly before) now request).mpr
      (own before now request after split)

end

@[reducible] def plainOrders : OrderExternals where
  publicKeyOf key := .ok key
  sign _ message := message
  verifySignature _ message signature := message == signature
  orderToString order :=
    "\x7b" ++ order.storageAddress ++ "," ++ order.fileUri ++ "," ++ order.contentUnitUri ++ "," ++
      order.sessionId ++ "," ++ toString order.seconds ++ "," ++ toString order.timePoint ++ "\x7d"

theorem plainOrders_signsTruly : @OrderExternals.SignsTruly plainOrders :=
  fun _ _ _ _ => beq_self_eq_true _

def requestFrom (storageAddress : String) : SignRequest :=
  ⟨"channel", ⟨storageAddress, "file", "unit", "session", 3600, 0⟩⟩

/-- A client asks again ten seconds later. The timer has run between the two requests. -/
def askedAgain : List OrderEvent :=
  [.request 0 (requestFrom "storage"), .timer fun _ => 5000000000]

/-- The order that was signed for the first request answers the second one too. -/
theorem repeated_request_answered :
    @signRequest plainOrders 10000000000 (requestFrom "storage")
        (@cacheAfter plainOrders askedAgain) =
      .ok (@sign plainOrders (requestFrom "storage") "channel",
        @cacheAfter plainOrders askedAgain) ∧
    @Answers plainOrders 10000000000 (requestFrom "storage")
      (@sign plainOrders (requestFrom "storage") "channel") := by
  have hkept : @kept 10000000000 (requestFrom "storage") "channel"
      (@cacheAfter plainOrders askedAgain) =
        some (@sign plainOrders (requestFrom "storage") "channel") := by decide
  have hsigned : @signRequest plainOrders 10000000000 (requestFrom "storage")
      (@cacheAfter plainOrders askedAgain) = .ok (@sign plainOrders (requestFrom "storage")
        "channel", @cacheAfter plainOrders askedAgain) := rfl
  refine ⟨hsigned, (@answers_iff_kept_for_it plainOrders plainOrders_signsTruly
    (askedAgain ++ [.request 10000000000 (requestFrom "storage")])).mpr ?_ askedAgain _ _ [] rfl
    _ _ hsigned⟩
  intro before now request after split address acceptable cached have_cache
  match before with
  | [] => cases have_cache
  | [_] => cases split
  | [_, _] =>
      cases split
      obtain ⟨key, _, _⟩ := acceptable
      cases key
      cases hkept.symm.trans have_cache
      exact ⟨rfl, by decide⟩
  | _ :: _ :: _ :: rest => cases rest <;> cases split

/-- A second storage for the same session is answered with the order for the first. -/
theorem answers_another_storage :
    ¬ ∀ events before now request after, events = before ++ .request now request :: after →
      ∀ signed cache',
        @signRequest plainOrders now request (@cacheAfter plainOrders before) =
          .ok (signed, cache') → @Answers plainOrders now request signed := by
  intro answers
  have second := answers _ [.request 0 (requestFrom "one")] 0 (requestFrom "two") [] rfl
    (@sign plainOrders (requestFrom "one") "channel")
    (@cacheAfter plainOrders [.request 0 (requestFrom "one")]) (by rfl)
  rcases second with ⟨-, storageAddress, -, -, -, -⟩
  exact absurd storageAddress (by decide)

end StorageOrder

end Publiq
