import Cs3013.Kernel.Interceptors
import Cs3013.Kernel.ScanCopy
import Cs3013.Library.Simulation

/-!
# System calls under the modules

A system call goes to the function that stands in the table. The functions of `part1` write into
the kernel log and pass the call on to the handler that was saved when the module was loaded. So the
users get what the kernel without the modules would answer, whenever modules come and go, and the
log names the calls of ordinary users while `part1` is there. All this holds as long as no read
makes `part1` write behind its block: what such a write hits is left open.
-/
namespace Cs3013.Kernel

open Function Cs3013.Library.CMemory Cs3013.Library.Interception Cs3013.Library.Simulation
  Cs3013.Library.Transition

/-- The arguments of a call. A pointer comes with the user's memory from it on. -/
inductive Request where
  | sysOpen (file : List UInt8) (flags mode : Int)
  | sysClose (fd : Int)
  | sysRead (fd : Int) (memory : List UInt8) (count : Nat)
  | other (number : Nat) (args : List Int)
      (hother : number ≠ nrOpen ∧ number ≠ nrClose ∧ number ≠ nrRead)

def Request.number : Request → Nat
  | sysOpen _ _ _ => nrOpen
  | sysClose _ => nrClose
  | sysRead _ _ _ => nrRead
  | other number _ _ => number

/-- A call by a user; `heap` is what `kmalloc` gives during it, as for `newSysRead`. -/
structure Call where
  uid : UInt32
  request : Request
  heap : Option (List UInt8)

/-- What the functions of `part1` write with `printk`. -/
inductive Message where
  | foundTable (address : Nat)
  | loaded
  | unloaded
  | opening (user : Int) (file : List UInt8)
  | closing (user fd : Int)
  | malicious (m : MaliciousCode)
  | exterminate
  deriving DecidableEq, Repr

/-- The message of `new_sys_open`; the outer `none` is a name that does not end. -/
def newSysOpen (uid : UInt32) (file : List UInt8) : Option (Option Message) :=
  if currentUser uid ≥ 1000 then
    (stringAt file).map fun name => some (.opening (currentUser uid) name)
  else
    some none

def newSysClose (uid : UInt32) (fd : Int) : Option Message :=
  if currentUser uid ≥ 1000 then some (.closing (currentUser uid) fd) else none

/-- The part of `new_sys_read` before it passes the call on. -/
def scanRead (uid : UInt32) (fd : Int) (memory : List UInt8) (count : Nat)
    (heap : Option (List UInt8)) : Option (Option Message) :=
  if currentUser uid ≥ 1000 then
    (heap.bind (scanBuffer (currentUser uid) fd memory count)).map fun log => log.map .malicious
  else
    some none

/-- The bytes that `new_sys_read` writes behind its block, each with its place from `data` on. -/
def Call.spilled (c : Call) : List (Nat × UInt8) :=
  match c.request, c.heap with
  | .sysRead _ memory count, some data =>
    if currentUser c.uid ≥ 1000 then
      (scanTrace memory count data).writes.filter fun write => count < write.1
    else
      []
  | _, _ => []

/-- What `interceptor_start` of `part1` writes, where `sct` is the address that the search finds. -/
def startMessages (sct : Nat) (found : Bool) : List Message :=
  if found then [.foundTable sct, .loaded] else []

def endMessages (v : Statics) : List Message := if v.sysCallTable then [.unloaded] else []

/-- The modules, everything else in the machine, and what `part1` has written into the log. -/
structure Running (σ : Type) where
  modules : Interceptors
  world : σ
  log : List Message

/-- What `part1` writes when the modules are loaded and unloaded. -/
def Interceptors.printed (sct : Nat) (s : Interceptors) : Event → List Message
  | .load .part1 found => startMessages sct found
  | .unload .part1 => (s.loaded .part1).elim [] endMessages
  | _ => []

/-- What the modules meet: the functions outside of them, `new_cs3013_syscall2` (`none` is a call
that does not come back), what one byte written behind a block does to the machine, and the address
of the table. -/
structure Outside (σ : Type) where
  sys : Nat → Request → σ → Int × σ
  syscall2 : Request → σ → Option (Int × σ)
  overwrite : Running σ → Nat × UInt8 → Running σ
  sct : Nat

/-- Loading and unloading, and the calls with their results. A call is over before the next event:
no module is unloaded while one of its functions runs. -/
inductive Act where
  | modules (e : Event)
  | call (c : Call) (result : Int)

section Model

variable {σ : Type} (k : Outside σ)

/-- The call of a saved handler `ref_*`. A null pointer faults, and a function of `part1` that has
been saved as its own original does not come back. -/
def passOn (s : Running σ) (c : Call) (message : Option Message) : Option (Int × Running σ) :=
  match ((s.modules.refs .part1).map fun ref => ref c.request.number : Option Handler) with
  | some (.other address) =>
    let (result, world) := k.sys address c.request s.world
    some (result, ⟨s.modules, world, s.log ++ message.toList⟩)
  | _ => none

/-- A call goes through the table; `none` is a call that does not come back. -/
def answer (s : Running σ) (c : Call) : Option (Int × Running σ) :=
  match s.modules.table c.request.number, c.request with
  | .other address, request =>
    let (result, world) := k.sys address request s.world
    some (result, ⟨s.modules, world, s.log⟩)
  | .newSysOpen, .sysOpen file _ _ => (newSysOpen c.uid file).bind (passOn k s c)
  | .newSysClose, .sysClose fd => passOn k s c (newSysClose c.uid fd)
  | .newSysRead, .sysRead fd memory count =>
    (scanRead c.uid fd memory count c.heap).bind (passOn k (c.spilled.foldl k.overwrite s) c)
  | .newSysCs3013Syscall1, _ => some (0, ⟨s.modules, s.world, s.log ++ [.exterminate]⟩)
  | .newCs3013Syscall2, request =>
    (k.syscall2 request s.world).map fun (result, world) => (result, ⟨s.modules, world, s.log⟩)
  | _, _ => none

/-- The kernel with its modules, from a given table on. -/
def kernel (table : SysCallTable) (world : σ) : System (Running σ) Act where
  init s := s = ⟨⟨table, fun _ => none⟩, world, []⟩
  step s l s' :=
    match l with
    | .modules e => s.modules.step e = some s'.modules ∧ s'.world = s.world ∧
        s'.log = s.log ++ s.modules.printed k.sct e
    | .call c result => answer k s c = some (result, s')

/-- The same kernel when no module is ever loaded. -/
def plain (table : SysCallTable) (world : σ) : System σ (Call × Int) where
  init w := w = world
  step w x w' := ∃ address, table x.1.request.number = .other address ∧
    k.sys address x.1.request w = (x.2, w')

end Model

/-- The calls that the modules do not add. -/
def Request.Ordinary (r : Request) : Prop :=
  r.number ≠ nrCs3013Syscall1 ∧ r.number ≠ nrCs3013Syscall2

def Act.Ordinary : Act → Prop
  | .modules _ => True
  | .call c _ => c.request.Ordinary

/-- The user's view of an event. -/
def Act.shown : Act → Option (Call × Int)
  | .modules _ => none
  | .call c result => some (c, result)

/-- A table as it is before the modules come: addresses outside of them, or NULL. -/
def Clean (table : SysCallTable) : Prop :=
  ∀ n, table n = .null ∨ ∃ address, table n = .other address

/-- The string that `part1` looks at for an ordinary user ends: a file name somewhere, and the
string in the buffer of a read within `count + 1` bytes, for which `kmalloc` gives a block. -/
def Call.Readable (c : Call) : Prop :=
  currentUser c.uid ≥ 1000 →
    match c.request with
    | .sysOpen file _ _ => 0 ∈ file
    | .sysRead _ memory count => c.heap.isSome ∧ 0 ∈ memory.take (count + 1)
    | _ => True

/-- `part1` is not there, or writes nothing behind its block. -/
def Running.Spared {σ : Type} (s : Running σ) (c : Call) : Prop :=
  s.modules.refs .part1 ≠ none → c.spilled = []

def Act.Spared {σ : Type} (s : Running σ) : Act → Prop
  | .modules _ => True
  | .call c _ => s.Spared c

/-- What `part1` is meant to log about a load or an unload. -/
def Event.noted (sct : Nat) : Event → List Message
  | .load .part1 true => [.foundTable sct, .loaded]
  | .unload .part1 => [.unloaded]
  | _ => []

/-- What `part1` is meant to log about a call. -/
def Call.noted (c : Call) : Option Message :=
  let user := currentUser c.uid
  match c.request with
  | .sysOpen file _ _ =>
    if user ≥ 1000 then some (.opening user (file.takeWhile (· ≠ 0))) else none
  | .sysClose fd => if user ≥ 1000 then some (.closing user fd) else none
  | .sysRead fd memory _ =>
    if user ≥ 1000 ∧ virus <:+: memory.takeWhile (· ≠ 0) then some (.malicious ⟨user, fd⟩)
    else none
  | .other number _ _ => if number = nrCs3013Syscall1 then some .exterminate else none

/-! ## One call -/

section Calls

variable {uid : UInt32} {fd flags mode : Int} {file memory : List UInt8} {count : Nat}
  {heap : Option (List UInt8)} {message : Option Message} {c : Call}

theorem newSysOpen_noted (h : newSysOpen uid file = some message) :
    message = Call.noted ⟨uid, .sysOpen file flags mode, heap⟩ := by
  unfold newSysOpen at h
  unfold Call.noted
  dsimp only
  split_ifs at h ⊢
  · obtain ⟨name, hname, rfl⟩ := Option.map_eq_some_iff.mp h
    unfold stringAt at hname
    split_ifs at hname
    rw [← Option.some_inj.mp hname]
  · exact (Option.some_inj.mp h).symm

theorem scanRead_noted (h : scanRead uid fd memory count heap = some message) :
    message = Call.noted ⟨uid, .sysRead fd memory count, heap⟩ := by
  unfold scanRead at h
  unfold Call.noted
  dsimp only
  by_cases huser : currentUser uid ≥ 1000
  · rw [if_pos huser] at h
    obtain ⟨log, hlog, rfl⟩ := Option.map_eq_some_iff.mp h
    obtain ⟨data, -, hscan⟩ := Option.bind_eq_some_iff.mp hlog
    rw [scanBuffer_eq] at hscan
    obtain ⟨name, hname, rfl⟩ := Option.map_eq_some_iff.mp hscan
    unfold stringAt at hname
    split_ifs at hname
    rw [← Option.some_inj.mp hname]
    by_cases hvirus : virus <:+: memory.takeWhile (· ≠ 0)
    · rw [if_pos hvirus, if_pos ⟨huser, hvirus⟩]
      rfl
    · rw [if_neg hvirus, if_neg fun h => hvirus h.2]
      rfl
  · rw [if_neg huser] at h
    rw [if_neg fun h => huser h.1]
    exact (Option.some_inj.mp h).symm

theorem newSysOpen_readable (h : currentUser uid ≥ 1000 → 0 ∈ file) :
    ∃ message, newSysOpen uid file = some message := by
  unfold newSysOpen
  split_ifs with huser
  · rw [stringAt_of_mem (h huser)]
    exact ⟨_, rfl⟩
  · exact ⟨_, rfl⟩

theorem scanRead_readable
    (h : currentUser uid ≥ 1000 → heap.isSome ∧ 0 ∈ memory.take (count + 1)) :
    ∃ message, scanRead uid fd memory count heap = some message := by
  unfold scanRead
  split_ifs with huser
  · obtain ⟨hblock, htake⟩ := h huser
    obtain ⟨data, rfl⟩ := Option.isSome_iff_exists.mp hblock
    rw [Option.bind_some, scanBuffer_eq, stringAt_of_mem (List.mem_of_mem_take htake)]
    exact ⟨_, rfl⟩
  · exact ⟨_, rfl⟩

/-- Nothing is written behind the block. -/
theorem Call.Readable.spilled_eq_nil (h : c.Readable) : c.spilled = [] := by
  obtain ⟨uid, request, heap⟩ := c
  unfold Call.spilled
  cases request with
  | sysRead fd memory count =>
    cases heap with
    | none => rfl
    | some data =>
      show (if currentUser uid ≥ 1000 then _ else _) = _
      split_ifs with huser
      · have hinside : ∀ write ∈ (scanTrace memory count data).writes, write.1 ≤ count :=
          writes_inside_iff.mpr (.inl (h huser).2)
        rw [List.filter_eq_nil_iff]
        intro write hwrite
        rw [decide_eq_true_eq]
        exact Nat.not_lt.mpr (hinside write hwrite)
      · rfl
  | sysOpen file flags mode => rfl
  | sysClose fd => rfl
  | other number args hother => rfl

/-- The scan is the one of `newSysRead`. -/
theorem newSysRead_message (refSysRead : SysRead) :
    (newSysRead refSysRead uid fd memory count heap).map (fun call => call.log.map .malicious) =
      scanRead uid fd memory count heap := by
  unfold newSysRead scanRead
  by_cases huser : currentUser uid ≥ 1000
  · simp only [if_pos huser]
    cases heap.bind (scanBuffer (currentUser uid) fd memory count) <;> rfl
  · simp only [if_neg huser]
    rfl

end Calls

/-! ## The modules on the table -/

section Modules

variable {table : SysCallTable} {s s' : Interceptors} {e : Event} {sct n : Nat}

theorem mem_part1 : n ∈ numbers (Module.hooks .part1) ↔
    n = nrOpen ∨ n = nrClose ∨ n = nrRead ∨ n = nrCs3013Syscall1 := by
  simp [numbers, Module.hooks]

/-- An entry that `part1` does not hold now. -/
def Aside (s : Interceptors) (n : Nat) : Prop :=
  s.refs .part1 ≠ none → n ∉ numbers (Module.hooks .part1)

theorem Sound.aside (hs : Sound table s) (hn : Aside s n) :
    n = nrCs3013Syscall2 ∧ s.table n = .newCs3013Syscall2 ∨
      Original .null Module.hooks table n (s.table n) := by
  by_cases hheld : s.refs .kernsysinfo ≠ none ∧ n = nrCs3013Syscall2
  · obtain ⟨hloaded, rfl⟩ := hheld
    exact .inl ⟨rfl, hs.mediated.installed .kernsysinfo hloaded _ (List.mem_singleton.mpr rfl)⟩
  · right
    apply hs.mediated.outside
    intro m hm
    cases m with
    | part1 => exact hn hm
    | kernsysinfo => exact fun hmem => hheld ⟨hm, List.mem_singleton.mp hmem⟩

end Modules

/-- The table is known as long as a module is loaded, so every unload is told. -/
theorem Sound.printed (hs : Sound table s) (hstep : s.step e = some s') :
    s.printed sct e = e.noted sct := by
  have hnext : (interceptors table).step s e s' := hstep
  obtain ⟨m, rfl, hm, rfl⟩ | ⟨m, rfl, rfl⟩ | ⟨m, v, rfl, hv, rfl⟩ := step_cases hnext
  · cases m <;> rfl
  · cases m <;> rfl
  · cases m with
    | part1 =>
      show (s.loaded .part1).elim [] endMessages = _
      rw [hv]
      exact if_pos (hs.known .part1 v hv)
    | kernsysinfo => rfl

/-! ## One answer -/

section Answers

variable {σ : Type} {k : Outside σ} {table : SysCallTable} {s s' : Running σ} {c : Call}
  {result : Int} {message : Option Message} {ref : SysCallTable}

/-- What `part1` adds to the log now. -/
def logged (s : Running σ) (c : Call) : Option Message :=
  if s.modules.refs .part1 = none then none else c.noted

/-- What an answer does: it logs what is due, and leaves the rest to the original handler. -/
structure Answered (k : Outside σ) (table : SysCallTable) (s : Running σ) (c : Call) (result : Int)
    (s' : Running σ) : Prop where
  modules : s'.modules = s.modules
  log : s'.log = s.log ++ (logged s c).toList
  passed : c.request.Ordinary → ∃ address, table c.request.number = .other address ∧
    k.sys address c.request s.world = (result, s'.world)

theorem logged_of_loaded (h : s.modules.refs .part1 = some ref) : logged s c = c.noted := by
  rw [logged, h, if_neg (Option.some_ne_none ref)]

theorem logged_aside (h : Aside s.modules c.request.number) : logged s c = none := by
  unfold logged
  split_ifs with hnone
  · rfl
  · have hnot := h hnone
    obtain ⟨uid, request, heap⟩ := c
    cases request with
    | sysOpen file flags mode => exact absurd (mem_part1.mpr (.inl rfl)) hnot
    | sysClose fd => exact absurd (mem_part1.mpr (.inr (.inl rfl))) hnot
    | sysRead fd memory count => exact absurd (mem_part1.mpr (.inr (.inr (.inl rfl)))) hnot
    | other number args hother =>
      exact if_neg fun heq => hnot (mem_part1.mpr (.inr (.inr (.inr heq))))

theorem passOn_answered (hloaded : s.modules.refs .part1 = some ref)
    (hkept : ref c.request.number = table c.request.number) (hmessage : message = c.noted)
    (h : passOn k s c message = some (result, s')) : Answered k table s c result s' := by
  unfold passOn at h
  rw [hloaded, Option.map_some, hkept] at h
  split at h
  · rename_i address haddress
    obtain ⟨rfl, rfl⟩ := Prod.mk.inj (Option.some_inj.mp h)
    refine ⟨rfl, ?_, fun _ => ⟨address, Option.some_inj.mp haddress, rfl⟩⟩
    rw [logged_of_loaded hloaded, hmessage]
  · cases h

theorem answer_aside (hs : Sound table s.modules) (hclean : Clean table)
    (hn : Aside s.modules c.request.number)
    (h : answer k s c = some (result, s')) : Answered k table s c result s' := by
  unfold answer at h
  rcases hs.aside hn with ⟨hnumber, hentry⟩ | horiginal
  · simp only [hentry] at h
    obtain ⟨⟨value, world⟩, -, heq⟩ := Option.map_eq_some_iff.mp h
    obtain ⟨rfl, rfl⟩ := Prod.mk.inj heq
    refine ⟨rfl, ?_, fun hord => absurd hnumber hord.2⟩
    rw [logged_aside hn]
    exact (List.append_nil _).symm
  · have hvalue : s.modules.table c.request.number = .null ∨
        ∃ address, s.modules.table c.request.number = .other address := by
      rcases horiginal with heq | ⟨-, heq⟩
      · rw [heq]
        exact hclean _
      · exact .inl heq
    rcases hvalue with hentry | ⟨address, hentry⟩
    · simp only [hentry] at h
      cases h
    · simp only [hentry] at h
      obtain ⟨rfl, rfl⟩ := Prod.mk.inj (Option.some_inj.mp h)
      refine ⟨rfl, ?_, fun hord => ⟨address, ?_, rfl⟩⟩
      · rw [logged_aside hn]
        exact (List.append_nil _).symm
      · rw [← hentry]
        exact (horiginal.eq (safe_of_ne hord.1)).symm

theorem answer_hooked (hs : Sound table s.modules) (hloaded : s.modules.refs .part1 = some ref)
    (hn : c.request.number ∈ numbers (Module.hooks .part1)) (hspill : c.spilled = [])
    (h : answer k s c = some (result, s')) : Answered k table s c result s' := by
  have hne : s.modules.refs .part1 ≠ none := hloaded ▸ Option.some_ne_none ref
  have hentry := hs.mediated.installed .part1 hne
  have hkept : ∀ hook ∈ Module.hooks .part1, hook.number ≠ nrCs3013Syscall1 →
      ref hook.number = table hook.number := fun hook hmem hnot =>
    (hs.mediated.kept .part1 ref hloaded hook hmem).eq (safe_of_ne hnot)
  obtain ⟨uid, request, heap⟩ := c
  unfold answer at h
  cases request with
  | sysOpen file flags mode =>
    have hhook : ⟨nrOpen, .newSysOpen, true⟩ ∈ Module.hooks .part1 := by
      simp [Module.hooks]
    have hhandler : s.modules.table nrOpen = .newSysOpen := hentry _ hhook
    simp only [Request.number, hhandler] at h
    obtain ⟨message, hmessage, hpass⟩ := Option.bind_eq_some_iff.mp h
    exact passOn_answered hloaded (hkept _ hhook (by decide)) (newSysOpen_noted hmessage) hpass
  | sysClose fd =>
    have hhook : ⟨nrClose, .newSysClose, true⟩ ∈ Module.hooks .part1 := by
      simp [Module.hooks]
    have hhandler : s.modules.table nrClose = .newSysClose := hentry _ hhook
    simp only [Request.number, hhandler] at h
    exact passOn_answered hloaded (hkept _ hhook (by decide)) rfl h
  | sysRead fd memory count =>
    have hhook : ⟨nrRead, .newSysRead, true⟩ ∈ Module.hooks .part1 := by
      simp [Module.hooks]
    have hhandler : s.modules.table nrRead = .newSysRead := hentry _ hhook
    simp only [Request.number, hhandler, hspill, List.foldl_nil] at h
    obtain ⟨message, hmessage, hpass⟩ := Option.bind_eq_some_iff.mp h
    exact passOn_answered hloaded (hkept _ hhook (by decide)) (scanRead_noted hmessage) hpass
  | other number args hother =>
    obtain heq | heq | heq | hnumber := mem_part1.mp hn
    · exact absurd heq hother.1
    · exact absurd heq hother.2.1
    · exact absurd heq hother.2.2
    change number = nrCs3013Syscall1 at hnumber
    subst hnumber
    have hhook : ⟨nrCs3013Syscall1, .newSysCs3013Syscall1, false⟩ ∈ Module.hooks .part1 := by
      simp [Module.hooks]
    have hhandler : s.modules.table nrCs3013Syscall1 = .newSysCs3013Syscall1 := hentry _ hhook
    simp only [Request.number, hhandler] at h
    obtain ⟨rfl, rfl⟩ := Prod.mk.inj (Option.some_inj.mp h)
    refine ⟨rfl, ?_, fun hord => absurd rfl hord.1⟩
    rw [logged_of_loaded hloaded]
    rfl

theorem answered (hs : Sound table s.modules) (hclean : Clean table) (hspill : s.Spared c)
    (h : answer k s c = some (result, s')) : Answered k table s c result s' := by
  cases hloaded : s.modules.refs .part1 with
  | none => exact answer_aside hs hclean (fun hne => absurd hloaded hne) h
  | some ref =>
    by_cases hn : c.request.number ∈ numbers (Module.hooks .part1)
    · exact answer_hooked hs hloaded hn (hspill (hloaded ▸ Option.some_ne_none ref)) h
    · exact answer_aside hs hclean (fun _ => hn) h

theorem passOn_returns {address : Nat} (hloaded : s.modules.refs .part1 = some ref)
    (hkept : ref c.request.number = .other address) (message : Option Message) :
    (passOn k s c message).isSome := by
  unfold passOn
  rw [hloaded, Option.map_some, hkept]
  rfl

/-- An ordinary call that has a handler comes back, if `part1` can read its string. -/
theorem answer_returns {address : Nat} (hs : Sound table s.modules) (hord : c.request.Ordinary)
    (hread : s.modules.refs .part1 ≠ none → c.Readable)
    (htable : table c.request.number = .other address) :
    (answer k s c).isSome := by
  by_cases hn : Aside s.modules c.request.number
  · rcases hs.aside hn with ⟨hnumber, -⟩ | horiginal
    · exact absurd hnumber hord.2
    · have hentry := (horiginal.eq (safe_of_ne hord.1)).trans htable
      simp only [answer, hentry]
      rfl
  · obtain ⟨hloaded, hmem⟩ := Classical.not_imp.mp hn
    replace hread := hread hloaded
    obtain ⟨ref, hloaded⟩ := Option.ne_none_iff_exists'.mp hloaded
    have hentry := hs.mediated.installed .part1 (hloaded ▸ Option.some_ne_none ref)
    have hkept : ref c.request.number = .other address := by
      obtain ⟨hook, hhook, heq⟩ := List.mem_map.mp (not_not.mp hmem)
      have hsafe := safe_of_ne hord.1
      rw [← heq] at hsafe htable ⊢
      exact ((hs.mediated.kept .part1 ref hloaded hook hhook).eq hsafe).trans htable
    obtain ⟨uid, request, heap⟩ := c
    unfold answer
    cases request with
    | sysOpen file flags mode =>
      have hhandler : s.modules.table nrOpen = .newSysOpen :=
        hentry ⟨nrOpen, .newSysOpen, true⟩ (by simp [Module.hooks])
      obtain ⟨message, hmessage⟩ := newSysOpen_readable hread
      simp only [Request.number, hhandler, hmessage, Option.bind_some]
      exact passOn_returns hloaded hkept message
    | sysClose fd =>
      have hhandler : s.modules.table nrClose = .newSysClose :=
        hentry ⟨nrClose, .newSysClose, true⟩ (by simp [Module.hooks])
      simp only [Request.number, hhandler]
      exact passOn_returns hloaded hkept _
    | sysRead fd memory count =>
      have hhandler : s.modules.table nrRead = .newSysRead :=
        hentry ⟨nrRead, .newSysRead, true⟩ (by simp [Module.hooks])
      obtain ⟨message, hmessage⟩ : ∃ message, scanRead uid fd memory count heap = some message :=
        scanRead_readable hread
      simp only [Request.number, hhandler, hmessage, Option.bind_some, hread.spilled_eq_nil,
        List.foldl_nil]
      exact passOn_returns hloaded hkept message
    | other number args hother =>
      obtain heq | heq | heq | heq := mem_part1.mp (not_not.mp hmem)
      · exact absurd heq hother.1
      · exact absurd heq hother.2.1
      · exact absurd heq hother.2.2
      · exact absurd heq hord.1

end Answers

/-! ## Runs -/

section Runs

variable {σ : Type} {k : Outside σ} {table : SysCallTable} {world : σ} {s s' : Running σ}
  {h : List Act} {l : Act}

theorem kernel_sound (hclean : Clean table) (hs : Sound table s.modules) (hspill : l.Spared s)
    (hstep : (kernel k table world).step s l s') : Sound table s'.modules := by
  cases l with
  | modules e => exact hs.step hstep.1
  | call c result => exact (answered hs hclean hspill hstep).modules ▸ hs

/-- Each ordinary call is one of the kernel without the modules, and they do nothing else. -/
theorem kernel_simulates (hclean : Clean table) :
    Simulates (kernel k table world) (plain k table world) (fun s l => l.Ordinary ∧ l.Spared s)
      Act.shown fun s w => Sound table s.modules ∧ s.world = w where
  init s hinit := by
    subst hinit
    exact ⟨world, rfl, sound_start table, rfl⟩
  shown s w l x u hR hok hstep hview := by
    obtain ⟨hord, hspill⟩ := hok
    cases l with
    | modules e => cases hview
    | call c result =>
      obtain rfl := Option.some_inj.mp hview
      obtain ⟨hs, rfl⟩ := hR
      have hanswer := answered hs hclean hspill hstep
      exact ⟨u.world, hanswer.passed hord, kernel_sound hclean hs hspill hstep, rfl⟩
  hidden s w l u hR hok hstep hview := by
    cases l with
    | modules e =>
      obtain ⟨hs, rfl⟩ := hR
      exact ⟨kernel_sound hclean hs hok.2 hstep, hstep.2.1⟩
    | call c result => cases hview

/-- Handlers that return their addresses and count the calls. A write behind a block clears the
log. -/
def counting : Outside Nat where
  sys address _ calls := (address, calls + 1)
  syscall2 _ _ := none
  overwrite s _ := { s with log := [] }
  sct := 0xffffffff81801400

/-- A read of five bytes into a buffer that holds VIRUS. -/
def reading : Call := ⟨1000, .sysRead 3 (virus ++ [0]) 5, some (List.replicate 6 0)⟩

theorem clean_other : Clean Handler.other := fun n => .inr ⟨n, rfl⟩

theorem reading_ordinary : reading.request.Ordinary := ⟨by decide, by decide⟩

theorem reading_readable : reading.Readable := fun _ => ⟨rfl, by decide⟩

theorem kernel_reading : ∃ s, (kernel counting Handler.other 0).RunIf
    (fun s l => l.Ordinary ∧ l.Spared s)
      [.modules (.unload .part1), .call reading 0, .modules (.load .part1 true)] s := by
  let ref := saved .null (Module.hooks .part1) Handler.other
  let modules : Interceptors := ⟨install (Module.hooks .part1) Handler.other,
    update (fun _ => none) .part1 (some ⟨true, ref⟩)⟩
  let found : List Message := [.foundTable 0xffffffff81801400, .loaded]
  let loaded : Running Nat := ⟨modules, 0, found⟩
  let read : Running Nat := ⟨modules, 1, found ++ [.malicious ⟨1000, 3⟩]⟩
  have hload : (kernel counting Handler.other 0).RunIf (fun s l => l.Ordinary ∧ l.Spared s)
      [.modules (.load .part1 true)] loaded :=
    ⟨_, rfl, .tail .refl ⟨trivial, trivial⟩ ⟨rfl, rfl, rfl⟩⟩
  have hread : (kernel counting Handler.other 0).RunIf (fun s l => l.Ordinary ∧ l.Spared s)
      [.call reading 0, .modules (.load .part1 true)] read :=
    hload.tail ⟨reading_ordinary, fun _ => reading_readable.spilled_eq_nil⟩ rfl
  exact ⟨⟨_, 1, _⟩, hread.tail ⟨trivial, trivial⟩ ⟨rfl, rfl, rfl⟩⟩

/-- Whether `part1` is loaded after the events. -/
def part1Loaded : List Act → Bool
  | [] => false
  | .modules (.load .part1 true) :: _ => true
  | .modules (.unload .part1) :: _ => false
  | _ :: h => part1Loaded h

theorem part1Loaded_modules {m m' : Interceptors} {e : Event}
    (h' : (m.refs .part1).isSome = part1Loaded h) (hstep : m.step e = some m') :
    (m'.refs .part1).isSome = part1Loaded (.modules e :: h) := by
  have hnext : (interceptors m.table).step m e m' := hstep
  obtain ⟨i, rfl, hi, rfl⟩ | ⟨i, rfl, rfl⟩ | ⟨i, v, rfl, hv, rfl⟩ := step_cases hnext
  · rw [refs_update]
    cases i with
    | part1 => rfl
    | kernsysinfo => exact h'
  · cases i <;> exact h'
  · rw [refs_update]
    cases i with
    | part1 => rfl
    | kernsysinfo => exact h'

/-- The messages that are due, oldest first. -/
def audit (sct : Nat) : List Act → List Message
  | [] => []
  | .call c _ :: h => audit sct h ++ (if part1Loaded h then c.noted.toList else [])
  | .modules e :: h => audit sct h ++ e.noted sct

end Runs

end Cs3013.Kernel
