import GoAtlas.Lib.Bpf

/-!
# The seccomp filter

`buildFilter` lays a denylist out as a classic BPF program: the architecture check, on amd64 the
guard against the x32 calls, one comparison for each denied call, and the three returns that the
jumps aim at. The offsets are computed in eight bits. The list, the architecture and the guard are
constants of the build and parameters here.
-/

namespace GoAtlas.Seccomp

open Lib Lib.Bpf

def retAllow : UInt32 := 0x7fff0000

/-- `SECCOMP_RET_ERRNO` with `EPERM`. -/
def retDeny : UInt32 := 0x00050000 ||| 1

/-- `SECCOMP_RET_KILL_PROCESS`. -/
def retKill : UInt32 := 0x80000000

def seccompDataNrOffset : UInt32 := 0
def seccompDataArchOffset : UInt32 := 4

def bpfArchToKillOffset : UInt8 := 3
def x32GuardLen : UInt8 := 3
def bpfX32BitToKillOffset : UInt8 := 4
def bpfX32LegacyToKillOffset : UInt8 := 2

def x32SyscallBit : UInt32 := 0x40000000
def x32LegacyFirst : UInt32 := 512
def x32LegacyLast : UInt32 := 547

structure Build where
  dangerousSyscalls : List UInt32
  expectedArch : UInt32
  rejectX32 : Bool

/-- The guard against the x32 calls, for a list of length `n`. -/
def x32Guard (n : UInt8) : List SockFilter :=
  [⟨JMP ||| JGE ||| K, n + bpfX32BitToKillOffset, 0, x32SyscallBit⟩,
    ⟨JMP ||| JGT ||| K, 1, 0, x32LegacyLast⟩,
    ⟨JMP ||| JGE ||| K, n + bpfX32LegacyToKillOffset, 0, x32LegacyFirst⟩]

/-- The loop over the denylist from its position `i` on. -/
def denyJumps (n : UInt8) : (i : Nat) → List UInt32 → List SockFilter
  | _, [] => []
  | i, nr :: nrs => ⟨JMP ||| JEQ ||| K, n - UInt8.ofNat i, 0, nr⟩ :: denyJumps n (i + 1) nrs

def returns : List SockFilter :=
  [⟨RET ||| K, 0, 0, retAllow⟩, ⟨RET ||| K, 0, 0, retDeny⟩, ⟨RET ||| K, 0, 0, retKill⟩]

def buildFilter (b : Build) : List SockFilter :=
  let n := UInt8.ofNat b.dangerousSyscalls.length
  let x := if b.rejectX32 then x32GuardLen else 0
  [⟨LD ||| W ||| ABS, 0, 0, seccompDataArchOffset⟩,
    ⟨JMP ||| JEQ ||| K, 0, n + bpfArchToKillOffset + x, b.expectedArch⟩,
    ⟨LD ||| W ||| ABS, 0, 0, seccompDataNrOffset⟩] ++
  ((if b.rejectX32 then x32Guard n else []) ++ (denyJumps n 0 b.dangerousSyscalls ++ returns))

/-- `seccomp_data`: the words after the architecture are not read. -/
structure SeccompData where
  nr : UInt32
  arch : UInt32
  rest : UInt32 → UInt32

def SeccompData.word (d : SeccompData) (offset : UInt32) : UInt32 :=
  if offset = seccompDataNrOffset then d.nr
  else if offset = seccompDataArchOffset then d.arch
  else d.rest offset

/-! ## The policy -/

/-- The calls that end the process. -/
def Build.Kills (b : Build) (d : SeccompData) : Prop :=
  d.arch ≠ b.expectedArch ∨
  b.rejectX32 = true ∧ (x32SyscallBit ≤ d.nr ∨ x32LegacyFirst ≤ d.nr ∧ d.nr ≤ x32LegacyLast)

instance (b : Build) (d : SeccompData) : Decidable (b.Kills d) := by
  unfold Build.Kills
  infer_instance

def Build.policy (b : Build) (d : SeccompData) : UInt32 :=
  if b.Kills d then retKill else if d.nr ∈ b.dangerousSyscalls then retDeny else retAllow

/-! ## Where the jumps lead -/

variable {data : UInt32 → UInt32} {n : UInt8} {nrs : List UInt32} {a : UInt32}

theorem length_denyJumps (n : UInt8) (i : Nat) (nrs : List UInt32) :
    (denyJumps n i nrs).length = nrs.length := by
  induction nrs generalizing i with
  | nil => rfl
  | cons nr nrs ih => simp [denyJumps, ih]

theorem exec_kill (n : UInt8) (i : Nat) (nrs : List UInt32) (a : UInt32) :
    exec data (denyJumps n i nrs ++ returns) (nrs.length + 2) a = some retKill := by
  have hlen : (denyJumps n i nrs ++ returns.take 2).length = nrs.length + 2 := by
    rw [List.length_append, length_denyJumps]
    rfl
  have hsplit : denyJumps n i nrs ++ returns =
      (denyJumps n i nrs ++ returns.take 2) ++ returns.drop 2 := by
    rw [List.append_assoc, List.take_append_drop]
  rw [hsplit, exec_skip hlen]
  rfl

theorem exec_denyJumps {i : Nat} (hlen : i + nrs.length = n.toNat) :
    exec data (denyJumps n i nrs ++ returns) 0 a =
      some (if a ∈ nrs then retDeny else retAllow) := by
  induction nrs generalizing i with
  | nil => rfl
  | cons nr nrs ih =>
    have hn := n.toNat_lt
    rw [List.length_cons] at hlen
    -- the offset of the jump is what is left of the list
    have hjump : (n - UInt8.ofNat i).toNat = nrs.length + 1 := by
      have hi : (UInt8.ofNat i).toNat = i := by
        rw [UInt8.toNat_ofNat']
        omega
      rw [UInt8.toNat_sub, hi]
      omega
    rw [denyJumps, List.cons_append, exec_jeq]
    by_cases ha : a = nr
    · rw [if_pos ha, hjump, if_pos (by simp [ha])]
      have hsplit : denyJumps n (i + 1) nrs ++ returns =
          (denyJumps n (i + 1) nrs ++ returns.take 1) ++ returns.drop 1 := by
        rw [List.append_assoc, List.take_append_drop]
      rw [hsplit, exec_skip (by rw [List.length_append, length_denyJumps]; rfl)]
      rfl
    · rw [if_neg ha, UInt8.toNat_zero, ih (by omega)]
      simp [ha]

theorem exec_x32Guard {prog : List SockFilter} (hn : n.toNat ≤ 251)
    (hkill : ∀ skip, skip = n.toNat + 2 → exec data prog skip a = some retKill) :
    exec data (x32Guard n ++ prog) 0 a =
      if x32SyscallBit ≤ a ∨ x32LegacyFirst ≤ a ∧
        a ≤ x32LegacyLast then some retKill else exec data prog 0 a := by
  have hbit : (n + bpfX32BitToKillOffset).toNat = n.toNat + 4 := by
    rw [UInt8.toNat_add]
    show (n.toNat + 4) % 256 = n.toNat + 4
    omega
  have hlegacy : (n + bpfX32LegacyToKillOffset).toNat = n.toNat + 2 := by
    rw [UInt8.toNat_add]
    show (n.toNat + 2) % 256 = n.toNat + 2
    omega
  rw [x32Guard, List.cons_append, exec_jge, hbit]
  by_cases h32 : x32SyscallBit ≤ a
  · rw [if_pos h32, if_pos (.inl h32)]
    -- the two other checks of the guard, then as from the second of them
    exact hkill _ rfl
  · rw [if_neg h32, UInt8.toNat_zero, List.cons_append, exec_jgt]
    by_cases hlast : x32LegacyLast < a
    · have hnot : ¬ (x32SyscallBit ≤ a ∨ x32LegacyFirst ≤ a ∧ a ≤ x32LegacyLast) := by
        rintro (h | ⟨-, h⟩)
        · exact h32 h
        · exact absurd hlast (UInt32.not_lt.mpr h)
      rw [if_pos hlast, if_neg hnot]
      rfl
    · rw [if_neg hlast, UInt8.toNat_zero, List.cons_append, exec_jge, hlegacy]
      have hle : a ≤ x32LegacyLast := UInt32.not_lt.mp hlast
      by_cases hfirst : x32LegacyFirst ≤ a
      · rw [if_pos hfirst, if_pos (.inr ⟨hfirst, hle⟩)]
        exact hkill _ rfl
      · rw [if_neg hfirst, if_neg (by rintro (h | ⟨h, -⟩); exacts [h32 h, hfirst h])]
        rfl

variable {b : Build}

/-- Past the guard lies the denylist, and from there the kill is as far as it is long and two
more. -/
theorem exec_checks (h : b.dangerousSyscalls.length ≤ 249) (d : SeccompData) :
    exec d.word ((if b.rejectX32 then x32Guard (UInt8.ofNat b.dangerousSyscalls.length) else []) ++
      (denyJumps (UInt8.ofNat b.dangerousSyscalls.length) 0 b.dangerousSyscalls ++ returns))
      0 d.nr =
    some (if b.rejectX32 = true ∧
      (x32SyscallBit ≤ d.nr ∨ x32LegacyFirst ≤ d.nr ∧ d.nr ≤ x32LegacyLast) then retKill
      else if d.nr ∈ b.dangerousSyscalls then retDeny else retAllow) := by
  have hn : (UInt8.ofNat b.dangerousSyscalls.length).toNat = b.dangerousSyscalls.length := by
    rw [UInt8.toNat_ofNat']
    omega
  have hdeny :=
    @exec_denyJumps d.word _ _ d.nr 0 ((Nat.zero_add b.dangerousSyscalls.length).trans hn.symm)
  by_cases hx : b.rejectX32 = true
  · rw [if_pos hx, exec_x32Guard (by omega), hdeny]
    · simp only [hx, true_and]
      split <;> rfl
    · intro skip hskip
      rw [hskip, hn]
      exact exec_kill _ 0 b.dangerousSyscalls d.nr
  · rw [if_neg hx, List.nil_append, hdeny]
    simp only [hx, false_and, Bool.false_eq_true, if_false]

theorem exec_kill_of_arch (h : b.dangerousSyscalls.length ≤ 249) {i : SockFilter} :
    exec data (i ::
      ((if b.rejectX32 then x32Guard (UInt8.ofNat b.dangerousSyscalls.length) else []) ++
        (denyJumps (UInt8.ofNat b.dangerousSyscalls.length) 0 b.dangerousSyscalls ++ returns)))
      (UInt8.ofNat b.dangerousSyscalls.length + bpfArchToKillOffset +
        if b.rejectX32 then x32GuardLen else 0).toNat a =
    some retKill := by
  have hjump : ∀ x : UInt8, x.toNat ≤ 3 →
      (UInt8.ofNat b.dangerousSyscalls.length + bpfArchToKillOffset + x).toNat =
        (b.dangerousSyscalls.length + 2) + x.toNat + 1 := by
    intro x hx
    rw [UInt8.toNat_add, UInt8.toNat_add, UInt8.toNat_ofNat']
    show ((b.dangerousSyscalls.length % 256 + 3) % 256 + x.toNat) % 256 = _
    omega
  have hkill := @exec_kill data (UInt8.ofNat b.dangerousSyscalls.length) 0 b.dangerousSyscalls a
  by_cases hx : b.rejectX32 = true
  · rw [if_pos hx, if_pos hx, hjump x32GuardLen (by decide)]
    exact hkill
  · rw [if_neg hx, if_neg hx, hjump 0 (by decide)]
    exact hkill

theorem run_buildFilter (h : b.dangerousSyscalls.length ≤ 249) (d : SeccompData) :
    run (buildFilter b) d.word = some (b.policy d) := by
  have harch : d.word seccompDataArchOffset = d.arch := rfl
  have hnr : d.word seccompDataNrOffset = d.nr := rfl
  unfold run buildFilter Build.policy
  simp only [List.cons_append, List.nil_append, exec_ld, exec_jeq]
  rw [harch]
  by_cases ha : d.arch = b.expectedArch
  · rw [if_pos ha, UInt8.toNat_zero, exec_ld, hnr, exec_checks h d]
    have hkills : b.Kills d ↔ _ := or_iff_right (not_not.mpr ha)
    simp only [hkills]
  · have hkills : b.Kills d := .inl ha
    rw [if_neg ha, exec_kill_of_arch h, if_pos hkills]

/-- The three results of the filter, and when each is returned. -/
theorem filter_policy (b : Build) (h : b.dangerousSyscalls.length ≤ 249) (d : SeccompData) :
    (run (buildFilter b) d.word = some retKill ↔ b.Kills d) ∧
    (run (buildFilter b) d.word = some retDeny ↔ ¬ b.Kills d ∧ d.nr ∈ b.dangerousSyscalls) ∧
    (run (buildFilter b) d.word = some retAllow ↔ ¬ b.Kills d ∧ d.nr ∉ b.dangerousSyscalls) := by
  have hkd : retKill ≠ retDeny := by decide
  have hka : retKill ≠ retAllow := by decide
  have hda : retDeny ≠ retAllow := by decide
  rw [run_buildFilter h d]
  unfold Build.policy
  by_cases hk : b.Kills d
  · simp [hk, hkd, hka]
  · by_cases hm : d.nr ∈ b.dangerousSyscalls
    · simp [hk, hm, hkd.symm, hda]
    · simp [hk, hm, hka.symm, hda.symm]

/-- An x32 `ptrace` in the old numbering is not let through with the native number on the list. -/
theorem filter_policy_x32 :
    run (buildFilter ⟨[101, 165], 0xc000003e, true⟩)
      (SeccompData.word ⟨521, 0xc000003e, fun _ => 0⟩) =
      some retKill :=
  (filter_policy ⟨[101, 165], 0xc000003e, true⟩ (by decide) ⟨521, 0xc000003e, fun _ => 0⟩).1.mpr
    (by decide)

end GoAtlas.Seccomp
