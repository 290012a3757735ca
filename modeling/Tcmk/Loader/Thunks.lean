import Tcmk.Lib.X86
import Tcmk.Loader.Pe

/-!
# Calls through thunks (`emit_thunk`, and `arg_ptr` of `nt_syscalls.rs`)

A program that calls an imported function gets to a thunk, which executes `int 0x2E`. The kernel
then finds the number of the service in EAX, and in EDX or RDX the address of the arguments, one in
each slot. On i386 they are where the caller has put them; on x86_64 the thunk stores the four
arguments that are in registers into the space below the others. When the service has returned, the
thunk does, and removes from the stack what a function of its convention removes.
-/

namespace Tcmk

open Lib Lib.X86

namespace Loader.Pe

/-! ## Arguments -/

/-- `ARG_SLOT`. -/
def argSlot (arch : Arch) : ℕ := (format arch).word

/-- `arg_ptr`. -/
def argPtr (arch : Arch) (accessible : ℕ → Bool) (mem : ℕ → UInt8) (block index : ℕ) : Option ℕ :=
  if block = 0 then none
  else
    let addr := (block + index * argSlot arch) % 2 ^ arch.wordBits
    if !accessible addr || !accessible ((addr + (argSlot arch - 1)) % 2 ^ arch.wordBits) then none
    else some (loadNat arch.wordBits mem addr (argSlot arch))

/-- The registers of the first arguments on x86_64: RCX, RDX, R8 and R9. -/
def argRegisters : List ℕ := [1, 2, 8, 9]

/-- Argument `k` of a function, as its caller passes it: the return address is at the stack
pointer. -/
def passed (arch : Arch) (c : Cpu) (k : ℕ) : ℕ :=
  match arch with
  | .i386 => loadNat 32 c.mem ((c.regs sp + 4 + k * 4) % 2 ^ 32) 4
  | .x86_64 =>
    match argRegisters[k]? with
    | some r => c.regs r
    | none => loadNat 64 c.mem ((c.regs sp + 8 + k * 8) % 2 ^ 64) 8

/-! ## i386 -/

variable {e : Export} {c : Cpu}

/-- The processor at the `int` of a thunk of i386. -/
def trapped32 (e : Export) (c : Cpu) : Cpu where
  regs := Function.update (Function.update c.regs 0 e.service) 2 ((c.regs sp + 4) % 2 ^ 32)
  ip := (c.ip + 11) % 2 ^ 32
  mem := c.mem

theorem thunk32_length (e : Export) : (thunk32 e).length = 16 := by
  unfold thunk32 bytesOf
  split_ifs <;> simp

/-- The bytes of the instructions before the `ret`. -/
theorem thunk32_getD (e : Export) {k : ℕ} (hk : k < 11) : (thunk32 e).getD k 0 =
    ([0xB8, leByte e.service 0, leByte e.service 1, leByte e.service 2, leByte e.service 3,
      0x8D, 0x54, 0x24, 0x04, 0xCD, 0x2E] : List UInt8).getD k 0 := by
  unfold thunk32
  split_ifs <;> interval_cases k <;> rfl

theorem thunk32_traps (hservice : e.service < 2 ^ 32) (hip : c.ip < 2 ^ 32)
    (hcode : CodeAt 32 c.mem c.ip (thunk32 e)) : Traps 32 c 0x2E (trapped32 e c) := by
  have hlen := thunk32_length e
  -- mov eax, service
  have hmov : c.fetch 32 = some (.movImm 0 e.service, 5) := by
    refine hcode.fetch (Nat.mod_eq_of_lt hip).symm (by omega : 0 + 5 ≤ _) fun code h => ?_
    have hbyte := fun k (hk : k < 5) => (h k hk).trans (thunk32_getD e (by omega))
    rw [decode_movImm (hbyte 0 (by decide)), leNat_getD (by omega : e.service < 256 ^ 4)]
    intro k hk
    interval_cases k <;> exact hbyte _ (by decide)
  have hip₁ : (c.skip 32 5).ip = (c.ip + (0 + 5)) % 2 ^ 32 := skip_ip (Nat.mod_eq_of_lt hip).symm
  -- lea edx, [esp + 4]
  have hlea : ((c.skip 32 5).set 0 e.service).fetch 32 = some (.lea 2 4, 4) := by
    refine CodeAt.fetch (show CodeAt 32 _ c.ip (thunk32 e) from hcode) hip₁
      (by omega : 0 + 5 + 4 ≤ _) fun code h => ?_
    have hbyte := fun k (hk : k < 4) => (h k hk).trans (thunk32_getD e (by omega))
    rw [decode_lea32 (hbyte 0 (by decide)), hbyte 1 (by decide), hbyte 3 (by decide)]
    · simp [disp8]
    · rw [stackOperand, hbyte 1 (by decide), hbyte 2 (by decide)]
      simp
  have hip₂ := skip_ip (n := 4) (c := (c.skip 32 5).set 0 e.service) hip₁
  -- int 0x2E
  have hint : ((((c.skip 32 5).set 0 e.service).skip 32 4).exec 32 (.lea 2 4)).fetch 32 =
      some (.int 0x2E, 2) := by
    refine CodeAt.fetch (show CodeAt 32 _ c.ip (thunk32 e) from hcode) hip₂
      (by omega : 0 + 5 + 4 + 2 ≤ _) fun code h => ?_
    have hbyte := fun k (hk : k < 2) => (h k hk).trans (thunk32_getD e (by omega))
    rw [decode_int (hbyte 0 (by decide)), hbyte 1 (by decide)]
    rfl
  have htrap := Traps.step (.of_fetch hmov (by simp))
    (.step (.of_fetch hlea (by simp)) (.trap hint))
  have hend : ((((c.skip 32 5).set 0 e.service).skip 32 4).exec 32 (.lea 2 4)).skip 32 2 =
    trapped32 e c := by
    refine congrArg₂ (fun regs ip => Cpu.mk regs ip c.mem) ?_ ?_
    · refine congrArg (Function.update (Function.update c.regs 0 e.service) 2) ?_
      have hsp : Function.update c.regs 0 e.service sp = c.regs sp :=
        Function.update_of_ne (by decide) ..
      exact congrArg (fun x => (x + 4) % 2 ^ 32) hsp
    · exact skip_ip hip₂
  rw [← hend]
  exact htrap

/-- The `ret` of a thunk. -/
def returned (arch : Arch) (pop : ℕ) (c : Cpu) : Cpu :=
  { c.set sp ((c.regs sp + arch.wordBits / 8 + pop) % 2 ^ arch.wordBits) with
    ip := loadNat arch.wordBits c.mem (c.regs sp) (arch.wordBits / 8) }

theorem thunk32_returns {a : ℕ} (hstack : e.stackBytes < 2 ^ 16) (hip : c.ip = (a + 11) % 2 ^ 32)
    (hcode : CodeAt 32 c.mem a (thunk32 e)) : Step 32 c (returned .i386 e.stackBytes c) := by
  have hlen := thunk32_length e
  by_cases hpop : e.stackBytes = 0
  · have hret : c.fetch 32 = some (.ret 0, 1) := by
      refine hcode.fetch hip (by omega : 11 + 1 ≤ _) fun code h => decode_ret ?_
      rw [h 0 (by decide), thunk32, if_pos hpop]
      rfl
    rw [hpop]
    exact .of_fetch hret (by simp)
  · have hret : c.fetch 32 = some (.ret e.stackBytes, 3) := by
      refine hcode.fetch hip (by omega : 11 + 3 ≤ _) fun code h => ?_
      have hbytes : ∀ k < 3,
        code k = ([0xC2, leByte e.stackBytes 0, leByte e.stackBytes 1] : List UInt8).getD k 0 := by
        intro k hk
        rw [h k hk, thunk32, if_neg hpop]
        interval_cases k <;> rfl
      rw [decode_retImm (hbytes 0 (by decide)), leNat_getD (by omega : e.stackBytes < 256 ^ 2)]
      intro k hk
      interval_cases k <;> exact hbytes _ (by decide)
    exact .of_fetch hret (by simp)

/-! ## x86_64 -/

/-- The stack after the registers of the first arguments have been stored. -/
def spilled (c : Cpu) : ℕ → UInt8 :=
  let mem := store 64 c.mem (c.stackAddr 64 8) 8 (leByte (c.regs 1))
  let mem := store 64 mem (c.stackAddr 64 16) 8 (leByte (c.regs 2))
  let mem := store 64 mem (c.stackAddr 64 24) 8 (leByte (c.regs 8))
  store 64 mem (c.stackAddr 64 32) 8 (leByte (c.regs 9))

/-- The processor at the `int` of a thunk of x86_64. -/
def trapped64 (e : Export) (c : Cpu) : Cpu where
  regs := Function.update (Function.update c.regs 0 e.service) 2 ((c.regs sp + 8) % 2 ^ 64)
  ip := (c.ip + 32) % 2 ^ 64
  mem := spilled c

theorem thunk64_length (e : Export) : (thunk64 e).length = 48 := by
  unfold thunk64 bytesOf
  simp

/-- Its bytes before the padding. -/
theorem thunk64_getD (e : Export) {k : ℕ} (hk : k < 33) : (thunk64 e).getD k 0 =
    ([0x48, 0x89, 0x4C, 0x24, 0x08, 0x48, 0x89, 0x54, 0x24, 0x10, 0x4C, 0x89, 0x44, 0x24, 0x18,
      0x4C, 0x89, 0x4C, 0x24, 0x20, 0xB8, leByte e.service 0, leByte e.service 1,
      leByte e.service 2,
      leByte e.service 3, 0x48, 0x8D, 0x54, 0x24, 0x08, 0xCD, 0x2E, 0xC3] : List UInt8).getD k
      0 := by
  unfold thunk64
  interval_cases k <;> rfl

/-- The offsets of the stores, their registers and their displacements. -/
def spills : List (ℕ × ℕ × ℕ) := [(0, 1, 8), (5, 2, 16), (10, 8, 24), (15, 9, 32)]

theorem thunk64_spills {a o r disp : ℕ} (hspill : (o, r, disp) ∈ spills)
    (hip : c.ip = (a + o) % 2 ^ 64)
    (hcode : CodeAt 64 c.mem a (thunk64 e)) :
    Step 64 c ((c.skip 64 5).exec 64 (.store r disp)) := by
  have hlen := thunk64_length e
  have ho : o ≤ 15 := by
    simp only [spills, List.mem_cons, Prod.mk.injEq, List.not_mem_nil, or_false] at hspill
    omega
  refine .of_fetch (hcode.fetch hip (by omega : o + 5 ≤ _) fun code h => ?_) (by simp)
  have hbyte := fun k (hk : k < 5) => (h k hk).trans (thunk64_getD e (by omega))
  have h0 := hbyte 0 (by decide)
  have h1 := hbyte 1 (by decide)
  have h2 := hbyte 2 (by decide)
  have h3 := hbyte 3 (by decide)
  have h4 := hbyte 4 (by decide)
  simp only [spills, List.mem_cons, Prod.mk.injEq, List.not_mem_nil, or_false] at hspill
  rcases hspill with ⟨rfl, rfl, rfl⟩ | ⟨rfl, rfl, rfl⟩ | ⟨rfl, rfl, rfl⟩ | ⟨rfl, rfl, rfl⟩ <;>
  · simp at h0 h1 h2 h3 h4
    have hwide := (decode_wide (by simp [h0]) (by simp [stackOperand, h2, h3])).1 h1
    simpa [h0, h2, h4, disp8] using hwide

/-- The thunk stays as it is while it stores the registers. -/
theorem thunk64_holds {a o r disp : ℕ} (hspill : (o, r, disp) ∈ spills)
    (hcode : CodeAt 64 c.mem a (thunk64 e)) (hapart : Apart 64 a 48 ((c.regs sp + 8) % 2 ^ 64) 32) :
    CodeAt 64 ((c.skip 64 5).exec 64 (.store r disp)).mem a (thunk64 e) := by
  have hlen := thunk64_length e
  refine hcode.store (by rw [hlen]; decide) fun x hx htouch => ?_
  rw [hlen] at hx
  refine hapart x hx (Touches.sub (o := disp - 8) (n := 8) ?_ ?_ (by decide))
  · have hdisp : 8 ≤ disp := by
      simp only [spills, List.mem_cons, Prod.mk.injEq, List.not_mem_nil, or_false] at hspill
      omega
    rw [Nat.mod_add_mod, Nat.add_assoc, Nat.add_sub_cancel' hdisp]
    exact htouch
  · simp only [spills, List.mem_cons, Prod.mk.injEq, List.not_mem_nil, or_false] at hspill
    omega

theorem thunk64_traps (hservice : e.service < 2 ^ 32) (hip : c.ip < 2 ^ 64)
    (hcode : CodeAt 64 c.mem c.ip (thunk64 e))
    (hapart : Apart 64 c.ip 48 ((c.regs sp + 8) % 2 ^ 64) 32) :
    Traps 64 c 0x2E (trapped64 e c) := by
  have hlen := thunk64_length e
  have hip₀ : c.ip = (c.ip + 0) % 2 ^ 64 := (Nat.mod_eq_of_lt hip).symm
  -- The registers are stored.
  have hstep₁ := thunk64_spills (by decide : (0, 1, 8) ∈ spills) hip₀ hcode
  have hcode₁ := thunk64_holds (by decide : (0, 1, 8) ∈ spills) hcode hapart
  have hip₁ : ((c.skip 64 5).exec 64 (.store 1 8)).ip = (c.ip + 5) % 2 ^ 64 := rfl
  have hregs₁ : ((c.skip 64 5).exec 64 (.store 1 8)).regs = c.regs := rfl
  generalize hc₁ : (c.skip 64 5).exec 64 (.store 1 8) = c₁ at *
  have hstep₂ := thunk64_spills (by decide : (5, 2, 16) ∈ spills) hip₁ hcode₁
  have hcode₂ := thunk64_holds (by decide : (5, 2, 16) ∈ spills) hcode₁
    (by rw [hregs₁]; exact hapart)
  have hip₂ : ((c₁.skip 64 5).exec 64 (.store 2 16)).ip = (c.ip + 10) % 2 ^ 64 := skip_ip hip₁
  have hregs₂ : ((c₁.skip 64 5).exec 64 (.store 2 16)).regs = c.regs := hregs₁
  generalize hc₂ : (c₁.skip 64 5).exec 64 (.store 2 16) = c₂ at *
  have hstep₃ := thunk64_spills (by decide : (10, 8, 24) ∈ spills) hip₂ hcode₂
  have hcode₃ := thunk64_holds (by decide : (10, 8, 24) ∈ spills) hcode₂
    (by rw [hregs₂]; exact hapart)
  have hip₃ : ((c₂.skip 64 5).exec 64 (.store 8 24)).ip = (c.ip + 15) % 2 ^ 64 := skip_ip hip₂
  have hregs₃ : ((c₂.skip 64 5).exec 64 (.store 8 24)).regs = c.regs := hregs₂
  generalize hc₃ : (c₂.skip 64 5).exec 64 (.store 8 24) = c₃ at *
  have hstep₄ := thunk64_spills (by decide : (15, 9, 32) ∈ spills) hip₃ hcode₃
  have hcode₄ := thunk64_holds (by decide : (15, 9, 32) ∈ spills) hcode₃
    (by rw [hregs₃]; exact hapart)
  have hip₄ : ((c₃.skip 64 5).exec 64 (.store 9 32)).ip = (c.ip + 20) % 2 ^ 64 := skip_ip hip₃
  have hregs₄ : ((c₃.skip 64 5).exec 64 (.store 9 32)).regs = c.regs := hregs₃
  have hmem₄ : ((c₃.skip 64 5).exec 64 (.store 9 32)).mem = spilled c := by
    subst hc₃ hc₂ hc₁
    rfl
  generalize (c₃.skip 64 5).exec 64 (.store 9 32) = c₄ at *
  -- mov eax, service
  have hmov : c₄.fetch 64 = some (.movImm 0 e.service, 5) := by
    refine hcode₄.fetch hip₄ (by omega : 20 + 5 ≤ _) fun code h => ?_
    have hbyte := fun k (hk : k < 5) => (h k hk).trans (thunk64_getD e (by omega))
    rw [decode_movImm (hbyte 0 (by decide)), leNat_getD (by omega : e.service < 256 ^ 4)]
    intro k hk
    interval_cases k <;> exact hbyte _ (by decide)
  have hip₅ : ((c₄.skip 64 5).set 0 e.service).ip = (c.ip + 25) % 2 ^ 64 := skip_ip hip₄
  -- lea rdx, [rsp + 8]
  have hlea : ((c₄.skip 64 5).set 0 e.service).fetch 64 = some (.lea 2 8, 5) := by
    refine CodeAt.fetch (show CodeAt 64 _ c.ip (thunk64 e) from hcode₄) hip₅
      (by omega : 25 + 5 ≤ _) fun code h => ?_
    have hbyte := fun k (hk : k < 5) => (h k hk).trans (thunk64_getD e (by omega))
    have h0 := hbyte 0 (by decide)
    have h1 := hbyte 1 (by decide)
    have h2 := hbyte 2 (by decide)
    have h3 := hbyte 3 (by decide)
    have h4 := hbyte 4 (by decide)
    simp at h0 h1 h2 h3 h4
    have hwide := (decode_wide (by simp [h0]) (by simp [stackOperand, h2, h3])).2 h1
    simpa [h0, h2, h4, disp8] using hwide
  have hip₆ : ((((c₄.skip 64 5).set 0 e.service).skip 64 5).exec 64 (.lea 2 8)).ip =
      (c.ip + 30) % 2 ^ 64 := skip_ip hip₅
  -- int 0x2E
  have hint : ((((c₄.skip 64 5).set 0 e.service).skip 64 5).exec 64 (.lea 2 8)).fetch 64 =
      some (.int 0x2E, 2) := by
    refine CodeAt.fetch (show CodeAt 64 _ c.ip (thunk64 e) from hcode₄) hip₆
      (by omega : 30 + 2 ≤ _) fun code h => ?_
    have hbyte := fun k (hk : k < 2) => (h k hk).trans (thunk64_getD e (by omega))
    rw [decode_int (hbyte 0 (by decide)), hbyte 1 (by decide)]
    rfl
  have htrap := Traps.step hstep₁ (.step hstep₂ (.step hstep₃ (.step hstep₄
    (.step (.of_fetch hmov (by simp)) (.step (.of_fetch hlea (by simp)) (.trap hint))))))
  have hend : ((((c₄.skip 64 5).set 0 e.service).skip 64 5).exec 64 (.lea 2 8)).skip 64 2 =
    trapped64 e c := by
    have hsp : Function.update c.regs 0 e.service sp = c.regs sp :=
      Function.update_of_ne (by decide) ..
    have hregs : ((((c₄.skip 64 5).set 0 e.service).skip 64 5).exec 64 (.lea 2 8)).regs =
        (trapped64 e c).regs := by
      rw [trapped64, ← hsp, ← hregs₄]
      rfl
    unfold Cpu.skip at hregs ⊢
    exact congr (congr (congrArg Cpu.mk hregs) (skip_ip hip₆)) hmem₄
  rw [← hend]
  exact htrap

theorem thunk64_returns {a : ℕ} (hip : c.ip = (a + 32) % 2 ^ 64)
    (hcode : CodeAt 64 c.mem a (thunk64 e)) :
    Step 64 c (returned .x86_64 0 c) := by
  have hlen := thunk64_length e
  have hret : c.fetch 64 = some (.ret 0, 1) := by
    refine hcode.fetch hip (by omega : 32 + 1 ≤ _) fun code h => decode_ret ?_
    exact (h 0 (by decide)).trans (thunk64_getD e (by decide))
  exact .of_fetch hret (by simp)

/-! ## Calls -/

/-- How many bytes a thunk stores the registers of arguments into. -/
def shadowSpace : Arch → ℕ
  | .i386 => 0
  | .x86_64 => 32

/-- How many bytes of arguments the `ret` of a thunk removes. -/
def removed (arch : Arch) (e : Export) : ℕ :=
  match arch with
  | .i386 => e.stackBytes
  | .x86_64 => 0

/-- Where the caller's arguments begin: after the return address. -/
def argBlock (arch : Arch) (c : Cpu) : ℕ := (c.regs sp + argSlot arch) % 2 ^ arch.wordBits

/-- The processor `c'`, which is in the kernel, has called the service of an export, for a caller
that had got to the thunk with the processor in `c`. -/
structure Called (arch : Arch) (e : Export) (c c' : Cpu) : Prop where
  service : c'.regs 0 = e.service
  block : c'.regs 2 = argBlock arch c
  /-- The kernel reads the arguments that the caller has passed. -/
  args (accessible : ℕ → Bool) (k : ℕ) (hk : argSlot arch * (k + 2) ≤ 2 ^ arch.wordBits)
    (hfirst : accessible ((argBlock arch c + k * argSlot arch) % 2 ^ arch.wordBits) = true)
    (hlast : accessible
      (((argBlock arch c + k * argSlot arch) % 2 ^ arch.wordBits + (argSlot arch - 1)) %
      2 ^ arch.wordBits) = true) :
    argPtr arch accessible c'.mem (c'.regs 2) k = if argBlock arch c = 0 then none
    else some (passed arch c k)
  regs (r : ℕ) (hr₀ : r ≠ 0) (hr₂ : r ≠ 2) : c'.regs r = c.regs r
  mem (x : ℕ) (hx : ¬ Touches arch.wordBits (argBlock arch c) (shadowSpace arch) x) :
    c'.mem x = c.mem x
  /-- Whatever the service does to registers and to memory, the thunk returns to its caller. -/
  returns (c'' : Cpu) (hip : c''.ip = c'.ip) (hsp : c''.regs sp = c'.regs sp)
    (hthunk : CodeAt arch.wordBits c''.mem c.ip ((format arch).thunk e))
    (hmem : ∀ x, Touches arch.wordBits (c.regs sp) (argSlot arch) x → c''.mem x = c'.mem x) :
    Step arch.wordBits c'' { c'' with
      regs := Function.update c''.regs sp
        ((c.regs sp + argSlot arch + removed arch e) % 2 ^ arch.wordBits)
      ip := loadNat arch.wordBits c.mem (c.regs sp) (argSlot arch) }

/-- What `arg_ptr` finds in a slot that the program has access to. -/
theorem argPtr_eq {arch : Arch} {accessible : ℕ → Bool} {mem : ℕ → UInt8} {block k v : ℕ}
    (hfirst : accessible ((block + k * argSlot arch) % 2 ^ arch.wordBits) = true)
    (hlast : accessible (((block + k * argSlot arch) % 2 ^ arch.wordBits + (argSlot arch - 1)) %
      2 ^ arch.wordBits) = true)
    (hv : loadNat arch.wordBits mem ((block + k * argSlot arch) % 2 ^ arch.wordBits)
      (argSlot arch) = v) :
    argPtr arch accessible mem block k = if block = 0 then none else some v := by
  unfold argPtr
  simp only [hfirst, hlast, Bool.not_true, Bool.or_self, Bool.false_eq_true, if_false, hv]

/-- A thunk returns to its caller when the return address is where it was. -/
theorem returned_eq {arch : Arch} {c'' : Cpu} {mem : ℕ → UInt8} {n : ℕ}
    (hsp : c''.regs sp = c.regs sp)
    (hmem : ∀ x, Touches arch.wordBits (c.regs sp) (argSlot arch) x → c''.mem x = mem x) :
    returned arch n c'' = { c'' with
      regs := Function.update c''.regs sp ((c.regs sp + argSlot arch + n) % 2 ^ arch.wordBits)
      ip := loadNat arch.wordBits mem (c.regs sp) (argSlot arch) } := by
  have hslot : arch.wordBits / 8 = argSlot arch := by cases arch <;> rfl
  have hload : loadNat arch.wordBits c''.mem (c.regs sp) (argSlot arch) =
      loadNat arch.wordBits mem (c.regs sp) (argSlot arch) :=
    loadNat_congr hmem (by cases arch <;> decide)
  rw [returned, hsp, hslot, hload]
  rfl

theorem called32 (hstack : e.stackBytes < 2 ^ 16) : Called .i386 e c (trapped32 e c) := by
  have hblock : (trapped32 e c).regs 2 = argBlock .i386 c := by simp [trapped32]; rfl
  have hsp : (trapped32 e c).regs sp = c.regs sp := by simp [trapped32, sp]
  refine ⟨by simp [trapped32], hblock, ?_, ?_, fun x _ => rfl, ?_⟩
  · intro accessible k hk hfirst hlast
    rw [hblock]
    refine argPtr_eq hfirst hlast ?_
    exact congrArg (loadNat 32 c.mem · 4) (Nat.mod_add_mod ..)
  · intro r hr₀ hr₂
    simp [trapped32, hr₀, hr₂]
  · intro c'' hip hsp'' hthunk hmem
    have hret := thunk32_returns hstack hip hthunk
    rw [returned_eq (hsp''.trans hsp) hmem] at hret
    exact hret

/-! The four slots of the shadow space do not overlap each other, nor the slots behind them. -/

theorem slots_apart {s i j : ℕ} (hij : i ≠ j) (hi : 8 * (i + 2) ≤ 2 ^ 64)
    (hj : 8 * (j + 2) ≤ 2 ^ 64) :
    Apart 64 ((s + 8 * (i + 1)) % 2 ^ 64) 8 ((s + 8 * (j + 1)) % 2 ^ 64) 8 := by
  intro x hxi hxj
  obtain ⟨k, hk, -, rfl⟩ := hxi.exists
  obtain ⟨l, hl, -, hkl⟩ := hxj.exists
  rw [Nat.mod_add_mod, Nat.mod_add_mod] at hkl
  omega

theorem spilled_of_not {x : ℕ} (hx : ¬ Touches 64 ((c.regs sp + 8) % 2 ^ 64) 32 x) :
    spilled c x = c.mem x := by
  have hnot : ∀ d, 8 ≤ d → d ≤ 32 → ¬ Touches 64 (c.stackAddr 64 d) 8 x := by
    intro d hd hd' htouch
    refine hx (Touches.sub (o := d - 8) (n := 8) ?_ (by omega) (by decide))
    rw [Nat.mod_add_mod, Nat.add_assoc, Nat.add_sub_cancel' hd]
    exact htouch
  unfold spilled
  rw [store_of_not (hnot 32 (by decide) (by decide)),
    store_of_not (hnot 24 (by decide) (by decide)),
    store_of_not (hnot 16 (by decide) (by decide)), store_of_not (hnot 8 (by decide) (by decide))]

theorem spilled_slot {k : ℕ} (hregs : ∀ r, c.regs r < 2 ^ 64) (hk : 8 * (k + 2) ≤ 2 ^ 64) :
    loadNat 64 (spilled c) ((c.regs sp + 8 * (k + 1)) % 2 ^ 64) 8 = passed .x86_64 c k := by
  have hpass : ∀ (mem f) (j : ℕ), k ≠ j → 8 * (j + 2) ≤ 2 ^ 64 →
      loadNat 64 (store 64 mem (c.stackAddr 64 (8 * (j + 1))) 8 f)
      ((c.regs sp + 8 * (k + 1)) % 2 ^ 64) 8 =
        loadNat 64 mem ((c.regs sp + 8 * (k + 1)) % 2 ^ 64) 8 := fun mem f j hj hj' =>
    loadNat_store_of_apart (slots_apart hj hk hj') (by decide)
  have hstored : ∀ (mem : ℕ → UInt8) (r : ℕ),
      loadNat 64 (store 64 mem (c.stackAddr 64 (8 * (k + 1))) 8 (leByte (c.regs r)))
        ((c.regs sp + 8 * (k + 1)) % 2 ^ 64) 8 = c.regs r := fun mem r =>
    (loadNat_store _ (by decide)).trans (Nat.mod_eq_of_lt (hregs r))
  unfold spilled
  rcases k with _ | _ | _ | _ | k
  · rw [hpass _ _ 3 (by decide) (by decide), hpass _ _ 2 (by decide) (by decide),
      hpass _ _ 1 (by decide) (by decide)]
    exact hstored _ 1
  · rw [hpass _ _ 3 (by decide) (by decide), hpass _ _ 2 (by decide) (by decide)]
    exact hstored _ 2
  · rw [hpass _ _ 3 (by decide) (by decide)]
    exact hstored _ 8
  · exact hstored _ 9
  · rw [hpass _ _ 3 (by omega) (by decide), hpass _ _ 2 (by omega) (by decide),
      hpass _ _ 1 (by omega) (by decide), hpass _ _ 0 (by omega) (by decide)]
    refine congrArg (loadNat 64 c.mem · 8) (congrArg (· % 2 ^ 64) ?_)
    ring

theorem called64 (hregs : ∀ r, c.regs r < 2 ^ 64) : Called .x86_64 e c (trapped64 e c) := by
  have hblock : (trapped64 e c).regs 2 = argBlock .x86_64 c := by simp [trapped64]; rfl
  have hsp : (trapped64 e c).regs sp = c.regs sp := by simp [trapped64, sp]
  refine ⟨by simp [trapped64], hblock, ?_, ?_, fun x hx => spilled_of_not hx, ?_⟩
  · intro accessible k hk hfirst hlast
    rw [hblock]
    refine argPtr_eq hfirst hlast
      ((congrArg (loadNat 64 (spilled c) · 8) ?_).trans (spilled_slot hregs hk))
    refine (Nat.mod_add_mod ..).trans (congrArg (· % 2 ^ 64) ?_)
    show c.regs sp + 8 + k * 8 = c.regs sp + 8 * (k + 1)
    ring
  · intro r hr₀ hr₂
    simp [trapped64, hr₀, hr₂]
  · intro c'' hip hsp'' hthunk hmem
    have hret := thunk64_returns hip hthunk
    -- The return address is below the shadow space.
    have hbelow : ∀ x, Touches 64 (c.regs sp) 8 x → spilled c x = c.mem x := by
      intro x hx
      refine spilled_of_not fun hx' => ?_
      obtain ⟨k, hk, -, rfl⟩ := hx.exists
      obtain ⟨l, hl, -, hkl⟩ := hx'.exists
      rw [Nat.mod_add_mod] at hkl
      omega
    rw [returned_eq (hsp''.trans hsp) fun x hx => (hmem x hx).trans (hbelow x hx)] at hret
    exact hret

/-- A program that calls an imported function gets its service, with the arguments that it has
passed, and gets back to where it has called from. -/
theorem thunk_calls (arch : Arch) (e : Export) (c : Cpu) (hservice : e.service < 2 ^ 32)
    (hstack : e.stackBytes < 2 ^ 16) (hip : c.ip < 2 ^ arch.wordBits)
    (hregs : ∀ r, c.regs r < 2 ^ arch.wordBits)
    (hcode : CodeAt arch.wordBits c.mem c.ip ((format arch).thunk e))
    (hapart : Apart arch.wordBits c.ip (format arch).thunkSize (argBlock arch c)
      (shadowSpace arch)) : ∃ c', Traps arch.wordBits c 0x2E c' ∧ Called arch e c c' := by
  cases arch with
  | i386 => exact ⟨trapped32 e c, thunk32_traps hservice hip hcode, called32 hstack⟩
  | x86_64 => exact ⟨trapped64 e c, thunk64_traps hservice hip hcode hapart, called64 hregs⟩

/-- `WriteConsoleA` of `kernel32`. -/
def writeConsole : Export := ⟨ascii "WriteConsoleA", 5, 0x3004, 20⟩

/-- A call through a thunk at the address `0xC10000`, with the stack below the end of what is
reserved for the process. -/
def caller : Cpu where
  regs r := if r = sp then 0xC7FF00 else 7
  ip := 0xC10000
  mem := store 64 (fun _ => 0) 0xC10000 48 fun k => (thunk64 writeConsole).getD k 0

theorem caller_holds : CodeAt 64 caller.mem 0xC10000 (thunk64 writeConsole) := by
  intro k hk
  rw [thunk64_length] at hk
  have hw : k < 2 ^ 64 := by omega
  unfold caller
  dsimp only
  rw [store_add hk hw]

theorem caller_regs (r : ℕ) : caller.regs r < 2 ^ 64 := by
  unfold caller
  dsimp only
  split_ifs <;> decide

theorem caller_block : argBlock .x86_64 caller = 0xC7FF08 := by decide

theorem caller_apart : Apart 64 0xC10000 48 0xC7FF08 32 := by
  intro x hx hx'
  have hcode := (touches_iff (by decide)).1 hx
  have hshadow := (touches_iff (by decide)).1 hx'
  omega

theorem thunk_calls_writeConsole :
    ∃ c', Traps 64 caller 0x2E c' ∧ Called .x86_64 writeConsole caller c' :=
  thunk_calls .x86_64 writeConsole caller (by decide) (by decide) (by decide) caller_regs
    caller_holds (by rw [caller_block]; exact caller_apart)

end Loader.Pe

end Tcmk
