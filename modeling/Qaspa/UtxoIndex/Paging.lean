import Qaspa.Lib.Delimited
import Qaspa.Script.Opcodes

/-! # Paging through the UTXO index

The UTXO index keeps one database row for each UTXO, under a key that starts with the script
public key and ends with the outpoint. Rows are iterated in the order of the key bytes. A
client collects the UTXOs of a script version page by page. The server fetches one row more
than the page holds, takes that row away again, and returns its key as the cursor, and the
store skips the row of the cursor. So the row between two pages is never delivered.
-/

namespace Qaspa.UtxoIndex

open LittleEndian List

/-- A UTXO of the index, as the store reads it back from the key and the value of its row. -/
structure IndexedUtxo where
  scriptPublicKey : ScriptPublicKey
  outpoint : TransactionOutpoint
  amount : UInt64
  blockDaaScore : UInt64
  isCoinbase : Bool
  deriving DecidableEq, Repr

namespace IndexedUtxo

variable (utxo : IndexedUtxo)

def scriptPublicKeyBucket : List UInt8 :=
  encode 2 utxo.scriptPublicKey.version.toNat ++
    encodeBytes 8 utxo.scriptPublicKey.script

def transactionOutpointKey : List UInt8 :=
  encode 32 utxo.outpoint.transactionId.toNat ++
    encode 4 utxo.outpoint.index.toNat

/-- The bytes of the full access key. -/
def rawKey : List UInt8 := utxo.scriptPublicKeyBucket ++ utxo.transactionOutpointKey

theorem rawKey_ne_nil : utxo.rawKey ≠ [] := by
  simp [rawKey, scriptPublicKeyBucket, encode]

end IndexedUtxo

/-- The rows of the index in the order of their keys. -/
structure Store where
  rows : List IndexedUtxo
  sorted : rows.Pairwise fun utxo utxo' => utxo.rawKey < utxo'.rawKey

namespace Store

variable (store : Store) (version : UInt16)

/-- The rows from a key on, as the database iterates over them, without the first one if it is
to be skipped. -/
def seekIterator (seekFrom : Option (List UInt8)) (skipFirst : Bool) : List IndexedUtxo :=
  let iterator := seekFrom.elim store.rows fun key => store.rows.dropWhile (·.rawKey < key)
  if skipFirst then iterator.tail else iterator

/-- The loop over the rows, with the results so far. -/
def collect (limit : Nat) : List IndexedUtxo → List IndexedUtxo → List IndexedUtxo
  | [], results => results
  | utxo :: rest, results =>
    if utxo.scriptPublicKey.version ≠ version then collect limit rest results
    else if limit ≤ (results ++ [utxo]).length then results ++ [utxo]
    else collect limit rest (results ++ [utxo])

def getUtxosByScriptVersion (cursorKey : Option (List UInt8)) (limit : Nat) : List IndexedUtxo :=
  collect version limit (store.seekIterator cursorKey cursorKey.isSome) []

/-- The rows of a script version. -/
def ofVersion (rows : List IndexedUtxo) : List IndexedUtxo :=
  rows.filter (·.scriptPublicKey.version = version)

/-- The rows behind the row of a cursor key, or all of them. -/
def Remaining : Option (List UInt8) → List IndexedUtxo → Prop
  | none, rest => rest = store.rows
  | some key, rest => ∃ before utxo, store.rows = before ++ utxo :: rest ∧ key = utxo.rawKey

variable {store version} {limit : Nat}

theorem collect_eq (rows : List IndexedUtxo) {results : List IndexedUtxo}
    (hresults : results.length < limit) :
    collect version limit rows results =
      results ++ (ofVersion version rows).take (limit - results.length) := by
  induction rows generalizing results with
  | nil => simp [collect, ofVersion]
  | cons utxo rows ih =>
    rw [collect, ofVersion]
    by_cases hversion : utxo.scriptPublicKey.version = version
    · have htake : limit - results.length = limit - (results.length + 1) + 1 := by omega
      rw [if_neg (not_not.mpr hversion), length_append, length_singleton,
        filter_cons_of_pos (by simpa using hversion), htake, take_succ_cons]
      split
      next hfull => rw [Nat.sub_eq_zero_of_le hfull, take_zero]
      next hspace =>
        rw [ih (by simpa using hspace), append_assoc, length_append]
        rfl
    · rw [if_pos hversion, ih hresults, filter_cons_of_neg (by simpa using hversion)]
      rfl

section

variable {cursorKey : Option (List UInt8)} {rest : List IndexedUtxo}
  (hrest : store.Remaining cursorKey rest)

include hrest

theorem Remaining.seekIterator : store.seekIterator cursorKey cursorKey.isSome = rest := by
  cases cursorKey with
  | none => exact hrest.symm
  | some key =>
    obtain ⟨before, utxo, hrows, rfl⟩ := hrest
    have hsorted := store.sorted
    rw [hrows, pairwise_append] at hsorted
    have hbefore : ∀ row ∈ before, decide (row.rawKey < utxo.rawKey) = true := fun row hrow =>
      decide_eq_true (hsorted.2.2 row hrow utxo (.head _))
    have hutxo : decide (utxo.rawKey < utxo.rawKey) = false :=
      decide_eq_false (List.lt_irrefl utxo.rawKey)
    simp only [Store.seekIterator, hrows, Option.elim_some]
    rw [dropWhile_append_of_pos hbefore, dropWhile_cons, hutxo]
    rfl

theorem Remaining.getUtxosByScriptVersion (hlimit : 0 < limit) :
    store.getUtxosByScriptVersion version cursorKey limit =
      (ofVersion version rest).take limit := by
  rw [Store.getUtxosByScriptVersion, hrest.seekIterator, collect_eq rest hlimit]
  rfl

/-- Behind a row of the version, the other rows of the version remain. -/
theorem Remaining.behind {page others : List IndexedUtxo} {utxo : IndexedUtxo}
    (hsplit : ofVersion version rest = page ++ utxo :: others) :
    ∃ rest', store.Remaining (some utxo.rawKey) rest' ∧ ofVersion version rest' = others ∧
      rest'.length < rest.length := by
  obtain ⟨front, back, rfl, _, hback⟩ := filter_eq_append_iff.mp hsplit
  obtain ⟨skipped, rest', rfl, _, _, hothers⟩ := filter_eq_cons_iff.mp hback
  refine ⟨rest', ?_, hothers, ?_⟩
  · cases cursorKey with
    | none => exact ⟨front ++ skipped, utxo, by rw [← hrest, append_assoc], rfl⟩
    | some key =>
      obtain ⟨before, first, hrows, _⟩ := hrest
      exact ⟨before ++ first :: (front ++ skipped), utxo, by simp [hrows], rfl⟩
  · simp only [length_append, length_cons]
    omega

end

end Store

/-! ## The call and its client -/

structure RpcScriptVersionCursor where
  outpoint : TransactionOutpoint
  cursorKey : List UInt8
  deriving DecidableEq, Repr

structure RpcUtxosByScriptVersionEntry where
  outpoint : TransactionOutpoint
  utxoEntry : UtxoEntry
  deriving DecidableEq, Repr

structure GetUtxosByScriptVersionResponse where
  entries : List RpcUtxosByScriptVersionEntry
  nextCursor : Option RpcScriptVersionCursor
  deriving DecidableEq, Repr

inductive RpcError where
  | unavailableInSafeMode
  | noUtxoIndex
  | consensusInTransitionalIbdState
  deriving DecidableEq, Repr

def rpcEntry (utxo : IndexedUtxo) : RpcUtxosByScriptVersionEntry :=
  ⟨utxo.outpoint, utxo.amount, utxo.scriptPublicKey, utxo.blockDaaScore, utxo.isCoinbase⟩

def rpcCursor (utxo : IndexedUtxo) : RpcScriptVersionCursor := ⟨utxo.outpoint, utxo.rawKey⟩

structure RpcCoreService where
  unsafeRpc : Bool
  utxoindex : Option Store
  transitionalIbdState : Bool

namespace RpcCoreService

open Store (ofVersion)

variable (service : RpcCoreService) (version : UInt16)

def getUtxosByScriptVersionCall (cursor : Option RpcScriptVersionCursor) (limit : Option Nat) :
    Outcome RpcError GetUtxosByScriptVersionResponse := do
  if !service.unsafeRpc ∧ version = Script.stealthScriptVersion then
    .error (.err .unavailableInSafeMode)
  let some utxoindex := service.utxoindex | .error (.err .noUtxoIndex)
  if service.transitionalIbdState then .error (.err .consensusInTransitionalIbdState)
  let fetchLimit := min (limit.getD 1000) 10000 + 1
  -- An empty key is no cursor.
  let cursorKey := (cursor.map (·.cursorKey)).filter (· ≠ [])
  let rawEntries := utxoindex.getUtxosByScriptVersion version cursorKey fetchLimit
  if rawEntries.length = fetchLimit then
    .ok ⟨rawEntries.dropLast.map rpcEntry, rawEntries.getLast?.map rpcCursor⟩
  else .ok ⟨rawEntries.map rpcEntry, none⟩

/-- The loop of a client that collects the pages, from a cursor on. -/
def scanViaUtxoindex (limit : Nat) :
    Nat → Option RpcScriptVersionCursor → List RpcUtxosByScriptVersionEntry →
      Outcome RpcError (List RpcUtxosByScriptVersionEntry)
  | 0, _, _ => .error .outOfFuel
  | fuel + 1, cursor, scanned => do
    let response ← service.getUtxosByScriptVersionCall version cursor (some limit)
    if response.entries = [] then .ok scanned
    else
      match response.nextCursor with
      | none => .ok (scanned ++ response.entries)
      | some cursor => scanViaUtxoindex limit fuel (some cursor) (scanned ++ response.entries)

/-- A service with the index that answers calls for the version. -/
structure Serves (store : Store) : Prop where
  available : service.unsafeRpc ∨ version ≠ Script.stealthScriptVersion
  utxoindex : service.utxoindex = some store
  synced : service.transitionalIbdState = false

variable {service version} {store : Store} {limit : Nat} {cursor : Option RpcScriptVersionCursor}
  {rest : List IndexedUtxo} (hserves : service.Serves version store) (hpos : 1 ≤ limit)
  (hmax : limit ≤ 10000)

include hserves hmax

/-- A page holds the first UTXOs that remain, and the one behind them is its cursor. -/
theorem getUtxosByScriptVersionCall_eq
    (hrest : store.Remaining (cursor.map (·.cursorKey)) rest) :
    service.getUtxosByScriptVersionCall version cursor (some limit) =
      .ok ⟨((ofVersion version rest).take limit).map rpcEntry,
        (ofVersion version rest)[limit]?.map rpcCursor⟩ := by
  have hkey : (cursor.map (·.cursorKey)).filter (· ≠ []) = cursor.map (·.cursorKey) := by
    cases cursor with
    | none => rfl
    | some cursor =>
      obtain ⟨_, utxo, _, hkey⟩ := hrest
      have hne : cursor.cursorKey ≠ [] := fun hempty => utxo.rawKey_ne_nil (hkey.symm.trans hempty)
      simp [hne]
  have hsafe : ¬(!service.unsafeRpc ∧ version = Script.stealthScriptVersion) := by
    rintro ⟨hsafe, hversion⟩
    exact hserves.available.elim (by simpa using hsafe) fun hne => hne hversion
  unfold getUtxosByScriptVersionCall
  simp only [hserves.utxoindex, hserves.synced, if_neg hsafe, Option.getD_some,
    Nat.min_eq_left hmax, hkey, hrest.getUtxosByScriptVersion (Nat.succ_pos limit),
    Bool.false_eq_true, if_false, length_take]
  by_cases hlong : limit < (ofVersion version rest).length
  · rw [if_pos (by omega), take_succ_eq_append_getElem hlong, getElem?_eq_getElem hlong,
      dropLast_concat, getLast?_concat]
  · rw [if_neg (by omega), take_of_length_le (by omega), take_of_length_le (by omega),
      getElem?_eq_none (by omega)]
    rfl

include hpos

/-- The loop ends. It delivers UTXOs of the version in the order of the keys, all that remain if
they fit one page and fewer otherwise. -/
theorem scanViaUtxoindex_sublist
    (hrest : store.Remaining (cursor.map (·.cursorKey)) rest)
    (scanned : List RpcUtxosByScriptVersionEntry) :
    ∃ fuel utxos, service.scanViaUtxoindex version limit fuel cursor scanned =
        .ok (scanned ++ utxos.map rpcEntry) ∧
      utxos.Sublist (ofVersion version rest) ∧
      ((ofVersion version rest).length ≤ limit → utxos = ofVersion version rest) ∧
      (limit < (ofVersion version rest).length →
        utxos.length < (ofVersion version rest).length) := by
  induction hn : rest.length using Nat.strong_induction_on generalizing rest cursor scanned with
  | _ n ih =>
    have hcall := getUtxosByScriptVersionCall_eq hserves hmax hrest
    by_cases hpage : (ofVersion version rest).length ≤ limit
    · refine ⟨1, ofVersion version rest, ?_, List.Sublist.refl _, fun _ => rfl,
        fun hlt => absurd hpage hlt.not_ge⟩
      rw [take_of_length_le hpage, getElem?_eq_none hpage] at hcall
      rw [scanViaUtxoindex, hcall, Outcome.ok_bind]
      dsimp only
      split
      next hempty => rw [hempty, append_nil]
      · rfl
    · have hlt : limit < (ofVersion version rest).length := Nat.lt_of_not_le hpage
      have hsplit : ofVersion version rest = (ofVersion version rest).take limit ++
          (ofVersion version rest)[limit] :: (ofVersion version rest).drop (limit + 1) := by
        rw [getElem_cons_drop, take_append_drop]
      obtain ⟨rest', hrest', hothers, hshorter⟩ := hrest.behind hsplit
      have hcursor : store.Remaining
          ((some (rpcCursor (ofVersion version rest)[limit])).map (·.cursorKey)) rest' := hrest'
      obtain ⟨fuel, utxos, hscan, hsublist, _⟩ := ih _ (hn ▸ hshorter) hcursor
        (scanned ++ ((ofVersion version rest).take limit).map rpcEntry) rfl
      have hnonempty : ((ofVersion version rest).take limit).map rpcEntry ≠ [] := by
        apply ne_nil_of_length_pos
        rw [length_map, length_take]
        omega
      rw [getElem?_eq_getElem hlt] at hcall
      rw [hothers] at hsublist
      refine ⟨fuel + 1, (ofVersion version rest).take limit ++ utxos, ?_, ?_,
        fun hle => absurd hle hpage, fun _ => ?_⟩
      · rw [scanViaUtxoindex, hcall, Outcome.ok_bind, if_neg hnonempty, map_append,
          ← append_assoc]
        exact hscan
      · nth_rewrite 2 [hsplit]
        exact (List.Sublist.refl _).append (hsublist.cons _)
      · have hle := hsublist.length_le
        rw [length_drop] at hle
        rw [length_append, length_take]
        omega

/-- Paging collects every UTXO of the version once and nothing else if and only if they fit one
page. -/
theorem scanViaUtxoindex_complete :
    ∃ fuel scanned, service.scanViaUtxoindex version limit fuel none [] = .ok scanned ∧
      (scanned = (ofVersion version store.rows).map rpcEntry ↔
        (ofVersion version store.rows).length ≤ limit) ∧
      ((ofVersion version store.rows).map rpcEntry).Nodup := by
  have hstart : store.Remaining ((none : Option RpcScriptVersionCursor).map (·.cursorKey))
      store.rows := rfl
  obtain ⟨fuel, utxos, hscan, _, hall, hfewer⟩ :=
    scanViaUtxoindex_sublist hserves hpos hmax hstart []
  refine ⟨fuel, _, hscan, ⟨fun heq => ?_, fun hpage => by rw [hall hpage, List.nil_append]⟩, ?_⟩
  · by_contra hlong
    have hlt := hfewer (Nat.lt_of_not_le hlong)
    have hlength := congrArg length heq
    rw [List.nil_append, length_map, length_map] at hlength
    exact hlt.ne hlength
  · apply List.Pairwise.map _ _ (store.sorted.filter _)
    intro utxo utxo' hlt heq
    obtain ⟨houtpoint, hentry⟩ := RpcUtxosByScriptVersionEntry.mk.inj heq
    obtain ⟨_, hscript, _, _⟩ := UtxoEntry.mk.inj hentry
    rw [IndexedUtxo.rawKey, IndexedUtxo.scriptPublicKeyBucket, IndexedUtxo.transactionOutpointKey,
      houtpoint, hscript] at hlt
    exact List.lt_irrefl _ hlt

omit hserves hmax hpos

/-- A UTXO of the first version, with an empty script. -/
def plainUtxo (transactionId : BitVec 256) : IndexedUtxo :=
  ⟨⟨0, []⟩, ⟨transactionId, 0⟩, 1, 1, false⟩

def pairStore : Store := ⟨[plainUtxo 1, plainUtxo 2], by decide⟩

def pairService : RpcCoreService := ⟨false, some pairStore, false⟩

/-- The second of two pages of one UTXO is empty: its UTXO was the cursor. -/
theorem scanViaUtxoindex_loses :
    pairService.scanViaUtxoindex 0 1 2 none [] = .ok [rpcEntry (plainUtxo 1)] := by
  decide

theorem scanViaUtxoindex_complete_pair : ∃ fuel,
    pairService.scanViaUtxoindex 0 2 fuel none [] =
        .ok ((ofVersion 0 pairStore.rows).map rpcEntry) := by
  obtain ⟨fuel, scanned, hscan, hall, _⟩ := scanViaUtxoindex_complete
    (⟨.inr (by decide), rfl, rfl⟩ : pairService.Serves 0 pairStore) (by decide : 1 ≤ 2) (by decide)
  exact ⟨fuel, hscan.trans (congrArg _ (hall.mpr (by decide)))⟩

end RpcCoreService

end Qaspa.UtxoIndex
