/-
The host side of guest programs (`wasm/abi.rs`, `wasm/mod.rs`).

A guest is a strategy: from the replies it has had so far to its next host call,
with the memory it makes it with, or to its end.  What the store answers is a
parameter: any read may fail, and so may any pull of a scan.  `HostCtx.failed` is
not in the source and nothing reads it; it records the store operations that
failed.

* `runInstance_error_iff` — when an invocation fails;
* `errors_surface_iff` — an invocation in which a store operation failed is itself
  failed exactly if the operation was not a pull of a scan, or something else fails
  it too;
* `scan_error_swallowed` — a scan cut short by an I/O error can end in success.
-/
import Fluent31.Admission

namespace Fluent31

open Ordered

def NOT_FOUND : ℤ := -1
def EROFS : ℤ := -2
def EINVAL : ℤ := -3
def ENOSPC : ℤ := -4
def EBADF : ℤ := -5
def ELIMIT : ℤ := -6
def EIO : ℤ := -8

/-- A 32-bit argument or length as the guest sees it. -/
def toI32 (n : ℕ) : ℤ := (BitVec.ofNat 32 n).toInt

/-- The options of the runtime. -/
structure WasmOptions extends Options where
  wasmFuel : ℕ := 10 ^ 9
  executeRetries : ℕ := 3
  maxWasmOutput : ℕ := 2 ^ 25
  maxWasmLog : ℕ := 2 ^ 20
  maxWasmScans : ℕ := 64

/-! ### Scans -/

/-- An entry of a scan, or the error it stops at. -/
abbrev Pulled := Except Error (Bytes × Bytes)

/-- Merges the transaction's write overlay with a snapshot iterator, given by what it
still yields. -/
structure TxnIter where
  base : List Pulled
  basePeek : Option (Bytes × Bytes) := none
  overlay : List (Bytes × Option Bytes)
  reverse : Bool
  done : Bool := false

namespace TxnIter

def fillBase (it : TxnIter) : Except Error Unit × TxnIter :=
  match it.basePeek, it.base with
  | none, .ok kv :: base => (.ok (), { it with basePeek := some kv, base := base })
  | none, .error e :: base => (.error e, { it with base := base })
  | _, _ => (.ok (), it)

/-- The rounds of `next`; one that goes on has dropped an overlay entry. -/
def nextRounds : ℕ → TxnIter → Option Pulled × TxnIter
  | 0, it => (none, it)
  | n + 1, it =>
    match it.fillBase with
    | (.error e, it) => (some (.error e), { it with done := true })
    | (.ok _, it) =>
      match it.overlay, it.basePeek with
      | [], none => (none, { it with done := true })
      | [], some kv => (some (.ok kv), { it with basePeek := none })
      | (key, value) :: overlay, peek =>
        let useOverlay := match peek with
          | none => true
          | some kv => if it.reverse then decide (kv.1 ≤ key) else decide (key ≤ kv.1)
        if useOverlay then
          -- overlay shadows an equal base key
          let it := { it with
            overlay := overlay
            basePeek := it.basePeek.filter fun kv => decide (kv.1 ≠ key) }
          match value with
          | some v => (some (.ok (key, v)), it)
          | none => nextRounds n it
        else (peek.map .ok, { it with basePeek := none })

def next (it : TxnIter) : Option Pulled × TxnIter :=
  if it.done then (none, it) else nextRounds (it.overlay.length + 1) it

end TxnIter

inductive ScanIter
  | db (rest : List Pulled)
  | txn (it : TxnIter)

def ScanIter.pull : ScanIter → Option Pulled × ScanIter
  | .db [] => (none, .db [])
  | .db (x :: rest) => (some x, .db rest)
  | .txn it => (it.next.1, .txn it.next.2)

structure Scan where
  it : ScanIter
  pending : Option (Bytes × Bytes) := none
  errored : Bool := false

/-- Make sure `pending` holds the next entry.  An error carries the iterator's, if
it is a new one; the callers drop it. -/
def Scan.ensure (s : Scan) : Except (Option Error) Unit × Scan :=
  if s.errored then (.error none, s)
  else
    match s.pending with
    | some _ => (.ok (), s)
    | none =>
      match s.it.pull with
      | (none, it) => (.ok (), { s with it := it })
      | (some (.ok kv), it) => (.ok (), { s with it := it, pending := some kv })
      | (some (.error e), it) => (.error (some e), { s with it := it, errored := true })

/-! ### The context of an invocation -/

inductive Access
  | readOnly (seq : ℕ)
  | txn (t : Txn)

/-- Operations on the store that a host call may perform. -/
inductive StoreOp
  | get
  | getForUpdate
  | scanOpen
  /-- A scan's iterator is asked for its next entry. -/
  | pull
  | put
  | delete
  deriving DecidableEq

structure HostCtx where
  access : Access
  input : Bytes
  output : Bytes := []
  hostError : Option Error := none
  logBytes : ℕ := 0
  scans : List (BitVec 32 × Scan) := []
  nextScan : BitVec 32 := 1
  failed : List (StoreOp × Error) := []

/-- What the store answers to the host call of that number. -/
structure StoreEnv where
  get : ℕ → Bytes → ℕ → Except Error (Option Bytes)
  iter : ℕ → Option Bytes → Option Bytes → Bool → ℕ → Except Error (List Pulled)

/-- A host call with its arguments. -/
inductive HostCall
  | inputLen
  | inputRead (dst cap off : BitVec 32)
  | outputWrite (ptr len : BitVec 32)
  | log (level ptr len : BitVec 32)
  | get (kptr klen off vbuf vcap : BitVec 32)
  | getForUpdate (kptr klen off vbuf vcap : BitVec 32)
  | put (kptr klen vptr vlen : BitVec 32)
  | delete (kptr klen : BitVec 32)
  | scanOpen (loPtr loLen hiPtr hiLen flags : BitVec 32)
  | scanNext (h buf cap : BitVec 32)
  | scanEntryHint (h : BitVec 32)
  | scanSkip (h : BitVec 32)
  | scanClose (h : BitVec 32)

/-- A reply, and what the host wrote into the guest's memory, and where. -/
structure HostReply where
  value : ℤ
  wrote : Option (ℕ × Bytes) := none

/-- A reply or the text of a trap. -/
abbrev WResult := Except String HostReply

def readGuest (mem : Option Bytes) (ptr len : BitVec 32) : Except String Bytes :=
  match mem with
  | none => .error "guest exports no memory"
  | some m =>
    if m.length < len.toNat then .error "guest length out of range"
    else if m.length < ptr.toNat + len.toNat then .error "guest pointer range out of bounds"
    else .ok ((m.drop ptr.toNat).take len.toNat)

def writeGuest (mem : Option Bytes) (ptr : BitVec 32) (data : Bytes) : Except String (ℕ × Bytes) :=
  match mem with
  | none => .error "guest exports no memory"
  | some m =>
    if m.length < ptr.toNat + data.length then .error "guest pointer range out of bounds"
    else .ok (ptr.toNat, data)

def packedLen (k v : Bytes) : ℕ :=
  (putUvarint k.length).length + (putUvarint v.length).length + k.length + v.length

namespace HostCtx

variable (opts : WasmOptions) (env : StoreEnv) (n : ℕ) (mem : Option Bytes) (ctx : HostCtx)

def new (access : Access) (input : Bytes) : HostCtx := { access := access, input := input }

def fail (op : StoreOp) (e : Error) : HostCtx := { ctx with failed := ctx.failed ++ [(op, e)] }

/-- A failure that is kept as the invocation's error. -/
def record (op : StoreOp) (e : Error) : HostCtx := { ctx.fail op e with hostError := some e }

def setTxn (t : Txn) : HostCtx := { ctx with access := .txn t }

def scan? (h : BitVec 32) : Option Scan := (ctx.scans.find? fun p => decide (p.1 = h)).map Prod.snd

def setScan (h : BitVec 32) (s : Scan) : HostCtx :=
  { ctx with scans := ctx.scans.map fun p => if p.1 = h then (h, s) else p }

/-- `Txn::get`: the transaction's own write first. -/
def txnGet (t : Txn) (key : Bytes) : Except Error (Option Bytes) :=
  match t.writes.find? fun w => decide (w.1 = key) with
  | some w => .ok w.2
  | none => env.get n key t.snap

/-- `Txn::iter`: the writes within the bounds over the snapshot's entries. -/
def txnIter (t : Txn) (lo hi : Option Bytes) (reverse : Bool) : Except Error TxnIter :=
  (env.iter n lo hi reverse t.snap).map fun base =>
    let overlay := t.writes.filter fun w =>
      lo.all (fun lo => decide (lo ≤ w.1)) && hi.all fun hi => decide (w.1 < hi)
    { base := base, overlay := if reverse then overlay.reverse else overlay, reverse := reverse }

/-- Shared body of get / get_for_update, once the key is read. -/
def getKey (forUpdate : Bool) (key : Bytes) (off vbuf vcap : BitVec 32) : HostCtx × WResult :=
  match validateUserKey key with
  | .error _ => (ctx, .ok { value := EINVAL })
  | .ok _ =>
    let answer (ctx : HostCtx) (got : Except Error (Option Bytes)) : HostCtx × WResult :=
      match got with
      | .ok none => (ctx, .ok { value := NOT_FOUND })
      | .ok (some v) =>
        let len := min vcap.toNat (v.length - off.toNat)
        if off.toNat < v.length ∧ 0 < len then
          (ctx, (writeGuest mem vbuf ((v.drop off.toNat).take len)).map fun w => ⟨v.length, some w⟩)
        else (ctx, .ok { value := v.length })
      | .error e => (ctx.record (if forUpdate then .getForUpdate else .get) e, .ok { value := EIO })
    match ctx.access with
    | .readOnly seq =>
      if forUpdate then (ctx, .ok { value := EROFS }) else answer ctx (env.get n key seq)
    | .txn t =>
      let t := if forUpdate then
        { t with locks := if key ∈ t.locks then t.locks else key :: t.locks } else t
      answer (ctx.setTxn t) (txnGet env n t key)

def doGet (forUpdate : Bool) (kptr klen off vbuf vcap : BitVec 32) : HostCtx × WResult :=
  match readGuest mem kptr klen with
  | .error trap => (ctx, .error trap)
  | .ok key => getKey env n mem ctx forUpdate key off vbuf vcap

/-- A call on the write set; the only failure left is its cap. -/
def writeTxn (op : StoreOp) (write : Txn → Txn × Except Error Unit) : HostCtx × WResult :=
  match ctx.access with
  | .readOnly _ => (ctx, .ok { value := EROFS })
  | .txn t =>
    match write t with
    | (t, .ok _) => (ctx.setTxn t, .ok { value := 0 })
    | (t, .error e) => ((ctx.setTxn t).fail op e, .ok { value := ENOSPC })

def put (kptr klen vptr vlen : BitVec 32) : HostCtx × WResult :=
  match readGuest mem kptr klen, readGuest mem vptr vlen with
  | .error trap, _ => (ctx, .error trap)
  | .ok _, .error trap => (ctx, .error trap)
  | .ok key, .ok value =>
    if (validateUserKey key).isOk = false ∨ opts.maxKeySize < key.length ∨
        opts.maxValueSize < value.length then
      (ctx, .ok { value := EINVAL })
    else ctx.writeTxn .put fun t => t.put opts.toOptions key value

def delete (kptr klen : BitVec 32) : HostCtx × WResult :=
  match readGuest mem kptr klen with
  | .error trap => (ctx, .error trap)
  | .ok key =>
    if (validateUserKey key).isOk = false then (ctx, .ok { value := EINVAL })
    else ctx.writeTxn .delete fun t => t.delete opts.toOptions key

/-- An optional bound of a scan. -/
def readBound (ptr len : BitVec 32) : Except String (Option Bytes) :=
  if len = 0 then .ok none else (readGuest mem ptr len).map some

def scanOpen (loPtr loLen hiPtr hiLen flags : BitVec 32) : HostCtx × WResult :=
  if flags &&& ~~~1 ≠ 0 then (ctx, .ok { value := EINVAL })
  else
    let reverse := decide (flags &&& 1 = 1)
    match readBound mem loPtr loLen, readBound mem hiPtr hiLen with
    | .error trap, _ => (ctx, .error trap)
    | .ok _, .error trap => (ctx, .error trap)
    | .ok lo, .ok hi =>
      if opts.maxWasmScans ≤ ctx.scans.length then (ctx, .ok { value := ELIMIT })
      else
        let made : Except Error ScanIter := match ctx.access with
          | .readOnly seq => (env.iter n lo hi reverse seq).map ScanIter.db
          | .txn t => (txnIter env n t lo hi reverse).map ScanIter.txn
        match made with
        | .ok it =>
          ({ ctx with
              scans := ctx.scans ++ [(ctx.nextScan, ⟨it, none, false⟩)]
              nextScan := ctx.nextScan + 1 },
            .ok { value := ctx.nextScan.toInt })
        | .error e => (ctx.record .scanOpen e, .ok { value := EIO })

/-- A pull that failed: the scan remembers that it did, and the error is dropped. -/
def dropError (h : BitVec 32) (s : Scan) (e : Option Error) : HostCtx :=
  match e with
  | some e => (ctx.setScan h s).fail .pull e
  | none => ctx.setScan h s

/-- How the loop of `scan_next` ends. -/
inductive Batch
  | failed (e : Option Error)
  | tooSmall
  | full (out : Bytes)

/-- The loop of `scan_next`; an entry takes two bytes at least. -/
def fillBatch (cap : ℕ) : ℕ → Scan → Bytes → Batch × Scan
  | 0, s, out => (.full out, s)
  | fuel + 1, s, out =>
    match s.ensure with
    | (.error e, s) => (.failed e, s)
    | (.ok _, s) =>
      match s.pending with
      | none => (.full out, s)
      | some (k, v) =>
        if cap < out.length + packedLen k v then
          (if out.isEmpty then .tooSmall else .full out, s)
        else
          fillBatch cap fuel { s with pending := none }
            (out ++ putUvarint k.length ++ putUvarint v.length ++ k ++ v)

def scanNext (h buf cap : BitVec 32) : HostCtx × WResult :=
  let cap := min cap.toNat (2 ^ 24)
  match ctx.scan? h with
  | none => (ctx, .ok { value := EBADF })
  | some s =>
    match fillBatch cap (cap + 1) s [] with
    | (.failed e, s) => (ctx.dropError h s e, .ok { value := EIO })
    | (.tooSmall, s) => (ctx.setScan h s, .ok { value := ENOSPC })
    | (.full out, s) =>
      (ctx.setScan h s,
        if out.isEmpty then .ok { value := 0 }
        else (writeGuest mem buf out).map fun w => ⟨toI32 out.length, some w⟩)

def scanEntryHint (h : BitVec 32) : HostCtx × WResult :=
  match ctx.scan? h with
  | none => (ctx, .ok { value := EBADF })
  | some s =>
    match s.ensure with
    | (.error e, s) => (ctx.dropError h s e, .ok { value := EIO })
    | (.ok _, s) =>
      (ctx.setScan h s, .ok { value := (s.pending.map fun kv => packedLen kv.1 kv.2).getD 0 })

def scanSkip (h : BitVec 32) : HostCtx × WResult :=
  match ctx.scan? h with
  | none => (ctx, .ok { value := EBADF })
  | some s =>
    match s.ensure with
    | (.error e, s) => (ctx.dropError h s e, .ok { value := EIO })
    | (.ok _, s) =>
      (ctx.setScan h { s with pending := none }, .ok { value := if s.pending.isSome then 1 else 0 })

def scanClose (h : BitVec 32) : HostCtx × WResult :=
  match ctx.scan? h with
  | none => (ctx, .ok { value := EBADF })
  | some _ => ({ ctx with scans := ctx.scans.filter fun p => decide (p.1 ≠ h) }, .ok { value := 0 })

/-- The host's answer to the guest's call of number `n`. -/
def call : HostCall → HostCtx × WResult
  | .inputLen => (ctx, .ok { value := toI32 ctx.input.length })
  | .inputRead dst cap off =>
    if ctx.input.length ≤ off.toNat then (ctx, .ok { value := 0 })
    else
      let chunk := (ctx.input.drop off.toNat).take cap.toNat
      (ctx, (writeGuest mem dst chunk).map fun w => ⟨toI32 chunk.length, some w⟩)
  | .outputWrite ptr len =>
    match readGuest mem ptr len with
    | .error trap => (ctx, .error trap)
    | .ok data =>
      if opts.maxWasmOutput < ctx.output.length + data.length then (ctx, .ok { value := ENOSPC })
      else ({ ctx with output := ctx.output ++ data }, .ok { value := 0 })
  | .log _ ptr len =>
    match readGuest mem ptr len with
    | .error trap => (ctx, .error trap)
    | .ok data =>
      if opts.maxWasmLog < ctx.logBytes + data.length then (ctx, .ok { value := ENOSPC })
      else ({ ctx with logBytes := ctx.logBytes + data.length }, .ok { value := 0 })
  | .get kptr klen off vbuf vcap => doGet env n mem ctx false kptr klen off vbuf vcap
  | .getForUpdate kptr klen off vbuf vcap => doGet env n mem ctx true kptr klen off vbuf vcap
  | .put kptr klen vptr vlen => put opts mem ctx kptr klen vptr vlen
  | .delete kptr klen => delete opts mem ctx kptr klen
  | .scanOpen loPtr loLen hiPtr hiLen flags =>
    scanOpen opts env n mem ctx loPtr loLen hiPtr hiLen flags
  | .scanNext h buf cap => scanNext mem ctx h buf cap
  | .scanEntryHint h => ctx.scanEntryHint h
  | .scanSkip h => ctx.scanSkip h
  | .scanClose h => ctx.scanClose h

end HostCtx

/-! ### Guests -/

inductive GuestAct
  /-- The entry point returns. -/
  | exit (code : ℤ)
  | trap (text : String)
  /-- A host call, with the memory the guest exports. -/
  | call (mem : Option Bytes) (c : HostCall)

/-- What the guest does after the replies it has had. -/
abbrev Guest := List HostReply → GuestAct

/-- A compiled module: what instantiating it fails with, its start function and its
exported entry points. -/
structure WasmModule where
  instantiate : Option String := none
  start : Option Guest := none
  entry : String → Option Guest

def exportsFunc (m : WasmModule) (entry : String) : Bool := (m.entry entry).isSome

/-- Errors of an invocation. -/
inductive WasmError
  | engine (e : Error)
  | wasm (text : String)
  | guestFailed (code : ℤ) (output : Bytes)
  deriving DecidableEq

/-- An instance between two calls of its exports. -/
structure Instance where
  ctx : HostCtx
  replies : List HostReply := []
  fuel : ℕ

/-- Runs an export; every host call takes fuel. -/
def Instance.run (opts : WasmOptions) (env : StoreEnv) (g : Guest) :
    ℕ → HostCtx → List HostReply → Except String ℤ × Instance
  | 0, ctx, replies => (.error "all fuel consumed by WebAssembly", ⟨ctx, replies, 0⟩)
  | fuel + 1, ctx, replies =>
    match g replies with
    | .exit code => (.ok code, ⟨ctx, replies, fuel + 1⟩)
    | .trap text => (.error text, ⟨ctx, replies, fuel + 1⟩)
    | .call mem c =>
      match ctx.call opts env replies.length mem c with
      | (ctx, .error trap) => (.error trap, ⟨ctx, replies, fuel⟩)
      | (ctx, .ok reply) => Instance.run opts env g fuel ctx (replies ++ [reply])

/-- How the run of a module ends. -/
inductive RunEnd
  /-- It cannot be instantiated, or has no such entry. -/
  | refused (text : String)
  | trapped (text : String)
  | exited (code : ℤ)

def RunEnd.isExit : RunEnd → Bool
  | exited _ => true
  | _ => false

/-- Instantiates a module and calls an entry point. -/
def runModule (opts : WasmOptions) (env : StoreEnv) (m : WasmModule) (ctx : HostCtx)
    (entry : String) :
    RunEnd × HostCtx :=
  match m.instantiate with
  | some text => (.refused s!"instantiate: {text}", ctx)
  | none =>
    let started : Except String ℤ × Instance := match m.start with
      | none => (.ok 0, ⟨ctx, [], opts.wasmFuel⟩)
      | some g => Instance.run opts env g opts.wasmFuel ctx []
    match started with
    | (.error text, i) => (.refused s!"instantiate: {text}", i.ctx)
    | (.ok _, i) =>
      match m.entry entry with
      | none => (.refused s!"missing {entry}(): failed to find function export", i.ctx)
      | some g =>
        match Instance.run opts env g i.fuel i.ctx i.replies with
        | (.error text, i) => (.trapped s!"trap: {text}", i.ctx)
        | (.ok code, i) => (.exited code, i.ctx)

/-- What `run_instance` makes of a run: a recorded error wins over a trap and over an
exit. -/
def runResult : RunEnd × HostCtx → Except WasmError (ℤ × HostCtx)
  | (.refused text, _) => .error (.wasm text)
  | (.trapped text, ctx) => .error ((ctx.hostError.map .engine).getD (.wasm text))
  | (.exited code, ctx) =>
    match ctx.hostError with
    | some e => .error (.engine e)
    | none => .ok (code, ctx)

def runInstance (opts : WasmOptions) (env : StoreEnv) (m : WasmModule) (ctx : HostCtx)
    (entry : String) :
    Except WasmError (ℤ × HostCtx) :=
  runResult (runModule opts env m ctx entry)

/-- A query's or an attempt's use of `run_instance`: a non-zero code fails it too. -/
def invoke (opts : WasmOptions) (env : StoreEnv) (m : WasmModule) (ctx : HostCtx) (entry : String) :
    Except WasmError HostCtx :=
  (runInstance opts env m ctx entry).bind fun r =>
    if r.1 ≠ 0 then .error (.guestFailed r.1 r.2.output) else .ok r.2

/-! ### What a call records -/

/-- Operations whose errors the host keeps. -/
def StoreOp.recorded : StoreOp → Bool
  | get | getForUpdate | scanOpen => true
  | pull | put | delete => false

/-- A write set over its cap. -/
def capError : Error := .invalidArgument "transaction write set exceeds max_txn_write_bytes"

/-- **What a host call does about failures.** -/
inductive HostCtx.Reports (ctx ctx' : HostCtx) : Prop
  | nothing : ctx'.failed = ctx.failed → ctx'.hostError = ctx.hostError → Reports ctx ctx'
  | recorded (op : StoreOp) (e : Error) : op.recorded = true →
    ctx'.failed = ctx.failed ++ [(op, e)] →
      ctx'.hostError = some e → Reports ctx ctx'
  | dropped (e : Error) : ctx'.failed = ctx.failed ++ [(.pull, e)] →
    ctx'.hostError = ctx.hostError →
      Reports ctx ctx'
  | capped (op : StoreOp) : op = .put ∨ op = .delete →
    ctx'.failed = ctx.failed ++ [(op, capError)] →
      ctx'.hostError = ctx.hostError → Reports ctx ctx'

namespace HostCtx

variable {opts : WasmOptions} {env : StoreEnv} {n : ℕ} {mem : Option Bytes} {ctx : HostCtx}

theorem reports_refl (ctx : HostCtx) : ctx.Reports ctx := .nothing rfl rfl

theorem getKey_reports (forUpdate : Bool) (key : Bytes) (off vbuf vcap : BitVec 32) :
    ctx.Reports (getKey env n mem ctx forUpdate key off vbuf vcap).1 := by
  have hrec : (if forUpdate then StoreOp.getForUpdate else .get).recorded = true := by
    cases forUpdate <;> rfl
  unfold getKey
  split
  · exact reports_refl ctx
  · simp only
    split
    · split
      · exact reports_refl ctx
      · split
        · exact reports_refl ctx
        · split <;> exact reports_refl ctx
        · exact .recorded .get _ rfl rfl rfl
    · split
      · exact .nothing rfl rfl
      · split <;> exact .nothing rfl rfl
      · exact .recorded _ _ hrec rfl rfl

theorem doGet_reports (forUpdate : Bool) (kptr klen off vbuf vcap : BitVec 32) :
    ctx.Reports (doGet env n mem ctx forUpdate kptr klen off vbuf vcap).1 := by
  unfold doGet
  split
  · exact reports_refl ctx
  · exact getKey_reports _ _ _ _ _

theorem trackBytes_error {t : Txn} {add : ℕ} {e : Error}
    (h : (t.trackBytes opts.toOptions add).2 = .error e) :
    e = capError := by
  unfold Txn.trackBytes at h
  simp only at h
  split at h
  · exact (Except.error.inj h).symm
  · exact absurd h (by simp)

theorem put_error {t : Txn} {key value : Bytes} {e : Error}
    (hkey : (validateUserKey key).isOk = true)
    (hsize : ¬ (opts.maxKeySize < key.length ∨ opts.maxValueSize < value.length))
    (h : (t.put opts.toOptions key value).2 = .error e) : e = capError := by
  unfold Txn.put at h
  cases hv : validateUserKey key with
  | error err =>
    rw [hv] at hkey
    exact absurd hkey Bool.noConfusion
  | ok u =>
    rw [hv] at h
    simp only at h
    rw [if_neg hsize] at h
    split at h
    · rename_i t' err htrack
      obtain rfl := Except.error.inj h
      exact trackBytes_error (congrArg Prod.snd htrack)
    · exact absurd h (by simp)

theorem delete_error {t : Txn} {key : Bytes} {e : Error} (hkey : (validateUserKey key).isOk = true)
    (h : (t.delete opts.toOptions key).2 = .error e) : e = capError := by
  unfold Txn.delete at h
  cases hv : validateUserKey key with
  | error err =>
    rw [hv] at hkey
    exact absurd hkey Bool.noConfusion
  | ok u =>
    rw [hv] at h
    simp only at h
    split at h
    · rename_i t' err htrack
      obtain rfl := Except.error.inj h
      exact trackBytes_error (congrArg Prod.snd htrack)
    · exact absurd h (by simp)

theorem writeTxn_reports {op : StoreOp} {write : Txn → Txn × Except Error Unit}
    (hop : op = .put ∨ op = .delete) (hwrite : ∀ t e, (write t).2 = .error e → e = capError) :
    ctx.Reports (ctx.writeTxn op write).1 := by
  unfold writeTxn
  split
  · exact reports_refl ctx
  · rename_i t ht
    split
    · exact .nothing rfl rfl
    · rename_i t' e heq
      obtain rfl := hwrite t e (congrArg Prod.snd heq)
      exact .capped op hop rfl rfl

theorem scanOpen_reports (loPtr loLen hiPtr hiLen flags : BitVec 32) :
    ctx.Reports (scanOpen opts env n mem ctx loPtr loLen hiPtr hiLen flags).1 := by
  unfold scanOpen
  split
  · exact reports_refl ctx
  · simp only
    split
    · exact reports_refl ctx
    · exact reports_refl ctx
    · split
      · exact reports_refl ctx
      · split
        · exact .nothing rfl rfl
        · exact .recorded .scanOpen _ rfl rfl rfl

theorem dropError_reports (h : BitVec 32) (s : Scan) (e : Option Error) :
    ctx.Reports (ctx.dropError h s e) := by
  cases e with
  | none => exact .nothing rfl rfl
  | some e => exact .dropped e rfl rfl

/-- Every call of a guest reports its failures in one of these ways. -/
theorem call_reports (c : HostCall) : ctx.Reports (ctx.call opts env n mem c).1 := by
  cases c with
  | inputLen => exact reports_refl ctx
  | inputRead dst cap off =>
    unfold call
    simp only
    split <;> exact reports_refl ctx
  | outputWrite ptr len =>
    unfold call
    simp only
    split
    · exact reports_refl ctx
    · split <;> exact .nothing rfl rfl
  | log level ptr len =>
    unfold call
    simp only
    split
    · exact reports_refl ctx
    · split <;> exact .nothing rfl rfl
  | get kptr klen off vbuf vcap => exact doGet_reports _ _ _ _ _ _
  | getForUpdate kptr klen off vbuf vcap => exact doGet_reports _ _ _ _ _ _
  | put kptr klen vptr vlen =>
    unfold call put
    simp only
    split
    · exact reports_refl ctx
    · exact reports_refl ctx
    · split
      · exact reports_refl ctx
      · rename_i key value _ _ hvalid
        simp only [not_or, Bool.not_eq_false] at hvalid
        -- a key that passed the check of the host fails for its size only
        exact writeTxn_reports (Or.inl rfl) fun t e he =>
          put_error hvalid.1 (by simp only [not_or]; exact hvalid.2) he
  | delete kptr klen =>
    unfold call delete
    simp only
    split
    · exact reports_refl ctx
    · split
      · exact reports_refl ctx
      · rename_i key _ hvalid
        exact writeTxn_reports (Or.inr rfl) fun t e he => delete_error (by simpa using hvalid) he
  | scanOpen loPtr loLen hiPtr hiLen flags => exact scanOpen_reports _ _ _ _ _
  | scanNext h buf cap =>
    unfold call scanNext
    simp only
    split
    · exact reports_refl ctx
    · split
      · exact dropError_reports _ _ _
      · exact .nothing rfl rfl
      · exact .nothing rfl rfl
  | scanEntryHint h =>
    unfold call scanEntryHint
    simp only
    split
    · exact reports_refl ctx
    · split
      · exact dropError_reports _ _ _
      · exact .nothing rfl rfl
  | scanSkip h =>
    unfold call scanSkip
    simp only
    split
    · exact reports_refl ctx
    · split
      · exact dropError_reports _ _ _
      · exact .nothing rfl rfl
  | scanClose h =>
    unfold call scanClose
    simp only
    split
    · exact reports_refl ctx
    · exact .nothing rfl rfl

/-- The recorded error and the failures of a context agree. -/
structure Accounted (ctx : HostCtx) : Prop where
  recorded : ctx.hostError.isSome = true ↔ ∃ f ∈ ctx.failed, f.1.recorded = true
  capped : ∀ f ∈ ctx.failed, f.1 = .put ∨ f.1 = .delete → f.2 = capError

theorem accounted_new (access : Access) (input : Bytes) : (new access input).Accounted :=
  ⟨by simp [new], fun _ hf => absurd hf List.not_mem_nil⟩

theorem Accounted.reports {ctx' : HostCtx} (h : ctx.Accounted) (hr : ctx.Reports ctx') :
    ctx'.Accounted := by
  cases hr with
  | nothing hfailed herror =>
    refine ⟨?_, ?_⟩
    · rw [hfailed, herror]
      exact h.recorded
    · rw [hfailed]
      exact h.capped
  | recorded op e hop hfailed herror =>
    refine ⟨?_, fun f hf hput => ?_⟩
    · rw [herror, hfailed]
      exact ⟨fun _ => ⟨(op, e), List.mem_append_right _ (List.mem_singleton_self _), hop⟩,
        fun _ => rfl⟩
    · rw [hfailed] at hf
      obtain hold | hnew := List.mem_append.mp hf
      · exact h.capped f hold hput
      · obtain rfl := List.mem_singleton.mp hnew
        obtain rfl | rfl := hput <;> exact absurd hop Bool.noConfusion
  | dropped e hfailed herror =>
    refine ⟨?_, fun f hf hput => ?_⟩
    · rw [herror, hfailed, h.recorded]
      simp [StoreOp.recorded]
    · rw [hfailed] at hf
      obtain hold | hnew := List.mem_append.mp hf
      · exact h.capped f hold hput
      · obtain rfl := List.mem_singleton.mp hnew
        exact absurd hput (by simp)
  | capped op hop hfailed herror =>
    refine ⟨?_, fun f hf hput => ?_⟩
    · rw [herror, hfailed, h.recorded]
      obtain rfl | rfl := hop <;> simp [StoreOp.recorded]
    · rw [hfailed] at hf
      obtain hold | hnew := List.mem_append.mp hf
      · exact h.capped f hold hput
      · exact congrArg Prod.snd (List.mem_singleton.mp hnew)

theorem accounted_run (h : ctx.Accounted) (g : Guest) (fuel : ℕ) (replies : List HostReply) :
    (Instance.run opts env g fuel ctx replies).2.ctx.Accounted := by
  induction fuel generalizing ctx replies with
  | zero => exact h
  | succ fuel ih =>
    unfold Instance.run
    cases g replies with
    | exit code => exact h
    | trap text => exact h
    | call mem c =>
      have hnext := h.reports (@call_reports opts env replies.length mem _ c)
      simp only
      split
      · rename_i ctx' trap hcall
        rw [hcall] at hnext
        exact hnext
      · rename_i ctx' reply hcall
        rw [hcall] at hnext
        exact ih hnext _

theorem accounted_runModule (h : ctx.Accounted) (m : WasmModule) (entry : String) :
    (runModule opts env m ctx entry).2.Accounted := by
  have hstart : (match m.start with
      | none => ((.ok 0, ⟨ctx, [], opts.wasmFuel⟩) : Except String ℤ × Instance)
      | some g => Instance.run opts env g opts.wasmFuel ctx []).2.ctx.Accounted := by
    split
    · exact h
    · exact accounted_run h _ _ _
  unfold runModule
  split
  · exact h
  · simp only
    split
    · rename_i text i heq
      rw [heq] at hstart
      exact hstart
    · rename_i code i heq
      rw [heq] at hstart
      split
      · exact hstart
      · rename_i g _
        have hrun := @accounted_run opts env _ hstart g i.fuel i.replies
        split
        · rename_i text i' heq'
          rw [heq'] at hrun
          exact hrun
        · rename_i code' i' heq'
          rw [heq'] at hrun
          exact hrun

end HostCtx

/-! ### When errors surface -/

section Surface

variable (opts : WasmOptions) (env : StoreEnv) (m : WasmModule) (access : Access) (input : Bytes)
    (entry : String)

/-- The run of an entry point in a fresh context. -/
def freshRun : RunEnd × HostCtx := runModule opts env m (.new access input) entry

/-- A store operation failed, other than by the cap on the write set. -/
def EngineFailed (ctx : HostCtx) : Prop :=
  ∃ f ∈ ctx.failed, ¬ ((f.1 = .put ∨ f.1 = .delete) ∧ f.2 = capError)

/-- **When an invocation fails.** -/
theorem runInstance_error_iff :
    (∃ e, runInstance opts env m (.new access input) entry = .error e) ↔
      (freshRun opts env m access input entry).1.isExit = false ∨
        ∃ f ∈ (freshRun opts env m access input entry).2.failed, f.1.recorded = true := by
  have hacc : (freshRun opts env m access input entry).2.Accounted :=
    HostCtx.accounted_runModule (HostCtx.accounted_new access input) m entry
  rw [← hacc.recorded]
  show (∃ e, runResult (freshRun opts env m access input entry) = .error e) ↔ _
  cases hrun : freshRun opts env m access input entry with
  | mk ending ctx =>
    cases ending with
    | refused text => exact iff_of_true ⟨_, rfl⟩ (Or.inl rfl)
    | trapped text => exact iff_of_true ⟨_, rfl⟩ (Or.inl rfl)
    | exited code =>
      cases herr : ctx.hostError with
      | none => simp [runResult, RunEnd.isExit, herr]
      | some e => simp [runResult, RunEnd.isExit, herr]

/-- **When engine errors surface**: exactly in runs in which no pull of a scan fails,
or which fail for another reason too. -/
theorem errors_surface_iff :
    (EngineFailed (freshRun opts env m access input entry).2 →
      (∃ e, runInstance opts env m (.new access input) entry = .error e) ∧
        ∃ e, invoke opts env m (.new access input) entry = .error e) ↔
    ((∀ f ∈ (freshRun opts env m access input entry).2.failed, f.1 ≠ .pull) ∨
      (∃ f ∈ (freshRun opts env m access input entry).2.failed,
        f.1 = .get ∨ f.1 = .getForUpdate ∨ f.1 = .scanOpen) ∨
      (freshRun opts env m access input entry).1.isExit = false) := by
  have hacc : (freshRun opts env m access input entry).2.Accounted :=
    HostCtx.accounted_runModule (HostCtx.accounted_new access input) m entry
  have hrecorded : ∀ op : StoreOp, op.recorded = true ↔ op = .get ∨ op = .getForUpdate ∨
      op = .scanOpen := by
    intro op
    cases op <;> simp [StoreOp.recorded]
  have hinvoke : (∃ e, runInstance opts env m (.new access input) entry = .error e) →
      ∃ e, invoke opts env m (.new access input) entry = .error e := by
    rintro ⟨e, he⟩
    exact ⟨e, by unfold invoke; rw [he]; rfl⟩
  constructor
  · intro h
    by_cases hpull : ∀ f ∈ (freshRun opts env m access input entry).2.failed, f.1 ≠ .pull
    · exact Or.inl hpull
    · push Not at hpull
      -- a pull failed: only another failure, or the exit, can tell
      obtain ⟨f, hf, hop⟩ := hpull
      have hfailed : EngineFailed (freshRun opts env m access input entry).2 :=
        ⟨f, hf, fun hput => by rw [hop] at hput; exact absurd hput.1 (by simp)⟩
      obtain hexit | ⟨g, hg, hrec⟩ :=
        (runInstance_error_iff opts env m access input entry).mp (h hfailed).1
      · exact Or.inr (Or.inr hexit)
      · exact Or.inr (Or.inl ⟨g, hg, (hrecorded g.1).mp hrec⟩)
  · rintro h ⟨f, hf, hput⟩
    have herr : ∃ e, runInstance opts env m (.new access input) entry = .error e := by
      rw [runInstance_error_iff]
      obtain hpull | ⟨g, hg, hrec⟩ | hexit := h
      · refine Or.inr ⟨f, hf, ?_⟩
        -- none is a pull, and a put or delete that fails is answered to the guest
        have hne := hpull f hf
        cases hop : f.1 with
        | pull => exact absurd hop hne
        | put => exact absurd ⟨Or.inl hop, hacc.capped f hf (Or.inl hop)⟩ hput
        | delete => exact absurd ⟨Or.inr hop, hacc.capped f hf (Or.inr hop)⟩ hput
        | get => rfl
        | getForUpdate => rfl
        | scanOpen => rfl
      · exact Or.inr ⟨g, hg, (hrecorded g.1).mpr hrec⟩
      · exact Or.inl hexit
    exact ⟨herr, hinvoke herr⟩

end Surface

/-- A guest that opens a scan over everything, asks for one batch of entries and, on
any answer, returns 0. -/
def scanningGuest : WasmModule where
  entry _ := some fun
    | [] => .call (some []) (.scanOpen 0 0 0 0 0)
    | [_] => .call (some []) (.scanNext 1 0 100)
    | _ => .exit 0

/-- A store whose scans stop at an I/O error. -/
def brokenScans : StoreEnv where
  get _ _ _ := .ok none
  iter _ _ _ _ _ := .ok [.error (.io "read failed")]

/-- The defaults. -/
def WasmOptions.default (tableFormat : TableFormat) : WasmOptions :=
  { Options.default tableFormat with }

/-- **An error is swallowed**: the invocation succeeds, on a scan cut short. -/
theorem scan_error_swallowed :
    EngineFailed (freshRun (.default ⟨fun _ => 1, fun _ => 1⟩) brokenScans scanningGuest
      (.txn (.new 5)) [] "execute").2 ∧
      ∃ ctx, invoke (.default ⟨fun _ => 1, fun _ => 1⟩) brokenScans scanningGuest
        (.new (.txn (.new 5)) []) "execute" = .ok ctx := by
  refine ⟨⟨(.pull, .io "read failed"), ?_, by simp⟩, ?_⟩
  · have : (freshRun (.default ⟨fun _ => 1, fun _ => 1⟩) brokenScans scanningGuest
      (.txn (.new 5)) [] "execute").2.failed = [(.pull, .io "read failed")] := by decide +kernel
    rw [this]
    exact List.mem_singleton_self _
  · have : ((invoke (.default ⟨fun _ => 1, fun _ => 1⟩) brokenScans scanningGuest
      (.new (.txn (.new 5)) []) "execute").map fun _ => ()) = .ok () := by decide +kernel
    cases h : invoke (.default ⟨fun _ => 1, fun _ => 1⟩) brokenScans scanningGuest
      (.new (.txn (.new 5)) []) "execute" with
    | ok ctx => exact ⟨ctx, rfl⟩
    | error e =>
      rw [h] at this
      exact absurd this (by simp [Except.map])

end Fluent31
