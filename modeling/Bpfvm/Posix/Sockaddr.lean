import Mathlib.Data.List.TakeWhile
import Mathlib.Tactic.Common

/-!
# Names of local sockets

`sockaddr_to_host` puts the host root in front of the path of an `AF_UNIX` address, and
`sockaddr_to_guest` takes it off again what the host kernel gives back. By then the kernel has cut
the name to the guest's capacity, so a short buffer shows the root, and how much of the path is
left depends on its length.
-/
namespace Bpfvm.Sockaddr
open List

abbrev Bytes := List (BitVec 8)

def slash : BitVec 8 := 0x2f

/-- `sun_family`. -/
def afUnix : Bytes := [1, 0]

/-- `std::filesystem` and `guest_abs_path`, as far as names of sockets need them. -/
structure Files where
  lexicallyNormal : Bytes → Bytes
  guestAbsPath : Bytes → Bytes
  abs_head : ∀ p, (guestAbsPath p).head? = some slash
  abs_noNul : ∀ p, 0 ∉ p → 0 ∉ guestAbsPath p

/-- A host root as `realpath` gives it. -/
structure Root (f : Files) where
  path : Bytes
  ne_nil : path ≠ []
  noNul : 0 ∉ path
  normal : path ≠ [slash] →
    ∀ p, f.lexicallyNormal (path ++ f.guestAbsPath p) = path ++ f.guestAbsPath p

/-- A C string. -/
def cString (b : Bytes) : Bytes := b.takeWhile (· ≠ 0)

/-- The path in an address. -/
def pathOf (addr : Bytes) : Bytes := cString ((addr.drop 2).take 108)

/-- An address of a file. -/
def IsPath (addr : Bytes) : Prop := 2 < addr.length ∧ addr.take 2 = afUnix ∧ addr.getD 2 0 ≠ 0

instance (addr : Bytes) : Decidable (IsPath addr) :=
  inferInstanceAs (Decidable (_ ∧ _ ∧ _))

def sockaddrToHost (f : Files) (root addr : Bytes) : Option Bytes :=
  if ¬IsPath addr then some addr
  else
    let abs := f.guestAbsPath (pathOf addr)
    let host := if root ≠ [] ∧ root ≠ [slash] then f.lexicallyNormal (root ++ abs) else abs
    if 2 + host.length + 1 > 110 then none else some (afUnix ++ (host ++ [0]))

/-- The bytes at `addr` and `*len` behind `sockaddr_to_guest`; `addr` has the bytes that the kernel
has written. -/
def sockaddrToGuest (root addr : Bytes) (len capacity : ℕ) : Bytes × ℕ :=
  if capacity ≤ 2 ∨ len ≤ 2 ∨ ¬IsPath addr ∨ root = [] ∨ root = [slash] then (addr, len)
  else
    let written := min capacity len - 2
    let hostPath := cString ((addr.drop 2).take written)
    if ¬root ++ [slash] <+: hostPath then (addr, len)
    else
      let guestPath := slash :: hostPath.drop (root.length + 1)
      (addr.take 2 ++ (guestPath ++ 0 :: List.replicate (written - (guestPath.length + 1)) 0),
        2 + guestPath.length + 1)

/-- What `getsockname` and the like give back for the host address `recorded`, of which the kernel
writes as much as fits. -/
def returned (root recorded : Bytes) (capacity : ℕ) : Bytes × ℕ :=
  sockaddrToGuest root (recorded.take capacity) recorded.length capacity

/-- The name in an address. -/
def name (addr : Bytes) : Bytes := cString (addr.drop 2)

/-- Neither answer tells the guest anything but its own path. -/
structure Hidden (path : Bytes) (capacity : ℕ) (a b : Bytes) : Prop where
  own : name a <+: path ∧ name b <+: path
  within : a.length ≤ capacity ∧ b.length ≤ capacity
  same : name a = name b

/-! ## The name behind the cut -/

theorem cString_take {x y : Bytes} {n : ℕ} (h : 0 ∉ x) :
    cString ((x ++ 0 :: y).take n) = x.take n := by
  induction x generalizing n with
  | nil => cases n <;> rfl
  | cons b x ih =>
    cases n with
    | zero => rfl
    | succ n =>
      rw [mem_cons, not_or] at h
      rw [cString, cons_append, take_succ_cons, takeWhile_cons_of_pos
        (by simpa using Ne.symm h.1), take_succ_cons]
      exact congrArg _ (ih h.2)

theorem cString_append {x y : Bytes} (h : 0 ∉ x) : cString (x ++ 0 :: y) = x := by
  have := cString_take (y := y) (n := (x ++ 0 :: y).length) h
  rwa [take_length, take_of_length_le (by simp)] at this

/-- The address of the file `host` in a buffer with room for `n` bytes of the name. -/
def cut (host : Bytes) (n : ℕ) : Bytes := afUnix ++ (host ++ [0]).take n

section
variable {root host : Bytes} {n : ℕ}

theorem length_cut_le : (cut host n).length ≤ n + 2 := by
  simp only [cut, afUnix, length_append, length_take, length_cons, length_nil]
  omega

theorem isPath_cut (hn : n ≠ 0) (hz : 0 ∉ host) (hne : host ≠ []) : IsPath (cut host n) := by
  obtain ⟨b, host, rfl⟩ := exists_cons_of_ne_nil hne
  obtain ⟨n, rfl⟩ := Nat.exists_eq_succ_of_ne_zero hn
  exact ⟨Nat.lt_of_sub_pos (Nat.succ_pos _), rfl, fun h0 => hz (h0 ▸ mem_cons_self)⟩

theorem returned_keep {capacity : ℕ} (h : capacity ≤ 2 ∨ root = [slash]) :
    (returned root host capacity).1 = host.take capacity := by
  rw [returned, sockaddrToGuest, if_pos]
  rcases h with h | h
  · exact .inl h
  · exact .inr (.inr (.inr (.inr h)))

theorem returned_cut (hn : n ≠ 0) (hr : root ≠ [] ∧ root ≠ [slash]) (hz : 0 ∉ host)
    (hne : host ≠ []) : (returned root (afUnix ++ (host ++ [0])) (n + 2)).1 =
      if ¬root ++ [slash] <+: host.take n then cut host n
      else
        let path := slash :: (host.take n).drop (root.length + 1)
        afUnix ++
          (path ++ 0 :: List.replicate (min n (host.length + 1) - (path.length + 1)) 0) := by
  have hlen : (afUnix ++ (host ++ [0])).length = host.length + 1 + 2 := by
    simp [afUnix]
  have hpath : cString (((cut host n).drop 2).take (min n (host.length + 1))) = host.take n := by
    refine Eq.trans (congrArg cString (take_of_length_le ?_)) (cString_take hz)
    simp [cut, afUnix]
  have hwritten : min (n + 2) (host.length + 1 + 2) - 2 = min n (host.length + 1) := by omega
  have htest : ¬(n + 2 ≤ 2 ∨ host.length + 1 + 2 ≤ 2 ∨ ¬IsPath (cut host n) ∨ root = [] ∨
      root = [slash]) := by
    have := isPath_cut hn hz hne
    simp only [not_or, not_not]
    exact ⟨by omega, by omega, this, hr⟩
  have hcut : (afUnix ++ (host ++ [0])).take (n + 2) = cut host n := rfl
  rw [returned, sockaddrToGuest, hcut, hlen, if_neg htest]
  simp only [hwritten, hpath]
  split_ifs <;> rfl

end

section
variable {f : Files} (r : Root f) (n : ℕ) {addr recorded : Bytes}

/-- The bytes of the root in a host name. -/
def Root.before : Bytes := if r.path = [slash] then [] else r.path

theorem recorded_eq (ha : IsPath addr) (h : sockaddrToHost f r.path addr = some recorded) :
    recorded = afUnix ++ ((r.before ++ f.guestAbsPath (pathOf addr)) ++ [0]) := by
  unfold sockaddrToHost at h
  rw [if_neg (not_not.mpr ha)] at h
  simp only [Option.ite_none_left_eq_some, Option.some.injEq] at h
  rw [← h.2, Root.before]
  by_cases hr : r.path = [slash]
  · simp [hr]
  · simp [hr, r.ne_nil, r.normal hr]

/-- What the guest finds: a part of the root, or of its own path. -/
def shown (n : ℕ) (before path : Bytes) : Bytes :=
  if n ≤ before.length then before.take n else path.take (n - before.length)

theorem name_returned {path : Bytes} (hp : path.head? = some slash) (hz : 0 ∉ path)
    (capacity : ℕ) :
    name (returned r.path (afUnix ++ ((r.before ++ path) ++ [0])) capacity).1 =
        shown (capacity - 2) r.before path ∧
      (returned r.path (afUnix ++ ((r.before ++ path) ++ [0])) capacity).1.length ≤ capacity := by
  obtain ⟨rest, rfl⟩ : ∃ rest, path = slash :: rest := List.head?_eq_some_iff.mp hp
  by_cases hc : capacity ≤ 2
  · rw [returned_keep (.inl hc), Nat.sub_eq_zero_of_le hc]
    refine ⟨?_, length_take_le _ _⟩
    rw [name, drop_eq_nil_of_le ((length_take_le _ _).trans hc)]
    simp [shown, cString]
  obtain ⟨n, rfl⟩ := Nat.exists_eq_add_of_lt (not_le.mp hc)
  rw [show 2 + n + 1 = n + 1 + 2 by omega, Nat.add_sub_cancel]
  by_cases hr : r.path = [slash]
  · rw [returned_keep (.inr hr), Root.before, if_pos hr]
    exact ⟨cString_take hz, length_cut_le⟩
  have hnul : 0 ∉ r.path ++ slash :: rest := by
    rw [mem_append, not_or]
    exact ⟨r.noNul, hz⟩
  have hpos := length_pos_iff.mpr r.ne_nil
  rw [Root.before, if_neg hr, returned_cut (Nat.add_one_ne_zero n) ⟨r.ne_nil, hr⟩ hnul (by simp),
    shown]
  by_cases hn : n + 1 ≤ r.path.length
  · -- the kernel has cut inside the root
    rw [if_pos, if_pos hn]
    · exact ⟨(cString_take hnul).trans (take_append_of_le_length hn), length_cut_le⟩
    · intro hpre
      have := hpre.length_le
      simp only [length_append, length_take, length_singleton] at this
      omega
  · obtain ⟨m, hm⟩ := Nat.exists_eq_add_of_lt (not_le.mp hn)
    have htake : (r.path ++ slash :: rest).take (r.path.length + m + 1) =
        (r.path ++ [slash]) ++ rest.take m := by
      rw [Nat.add_assoc, take_length_add_append]
      simp
    rw [if_neg hn, hm, htake, if_neg (not_not.mpr (prefix_append _ _)),
      drop_left' (by simp), Nat.add_assoc, Nat.add_sub_cancel_left, take_succ_cons]
    refine ⟨cString_append fun h => hz (take_subset (m + 1) _ h), ?_⟩
    simp only [afUnix, length_append, length_cons, length_nil, length_take,
      length_replicate]
    omega

theorem shown_prefix_iff {before path : Bytes} :
    shown n before path <+: path ↔ before.length < n ∨ before.take n <+: path := by
  unfold shown
  split_ifs with hn
  · rw [or_iff_right (not_lt.mpr hn)]
  · exact iff_of_true (List.take_prefix _ _) (.inl (not_le.mp hn))

theorem length_shown (before path : Bytes) : (shown n before path).length =
    if n ≤ before.length then n else min (n - before.length) path.length := by
  unfold shown
  split_ifs with hn
  · rw [length_take, min_eq_left hn]
  · rw [length_take]

/-- As much of the path is shown behind the one root as behind the other. -/
theorem length_shown_eq_iff {b₁ b₂ path : Bytes} (hp : path ≠ []) (h₁ : shown n b₁ path <+: path)
    (h₂ : shown n b₂ path <+: path) :
    (shown n b₁ path).length = (shown n b₂ path).length ↔
      b₁.length = b₂.length ∨ (path.length + b₁.length ≤ n ∧ path.length + b₂.length ≤ n) ∨
        (n ≤ b₁.length ∨ b₁.length = 0) ∧ (n ≤ b₂.length ∨ b₂.length = 0) := by
  have hpos := length_pos_iff.mpr hp
  have hl₁ := h₁.length_le
  have hl₂ := h₂.length_le
  rw [length_shown] at hl₁ hl₂ ⊢
  rw [length_shown]
  split_ifs at hl₁ hl₂ ⊢ <;> omega

end

/-- Paths that are absolute and normal as they are given. -/
def plainFiles : Files where
  lexicallyNormal := id
  guestAbsPath p := if p.head? = some slash then p else slash :: p
  abs_head p := by split_ifs with h <;> first | exact h | rfl
  abs_noNul p hp := by
    split_ifs
    · exact hp
    · simpa [slash] using hp

/-- The root `/h`. -/
def hostRoot : Root plainFiles := ⟨[slash, 0x68], by decide, by decide, fun _ _ => rfl⟩

/-- The root `/`. -/
def noRoot : Root plainFiles := ⟨[slash], by decide, by decide, fun h => absurd rfl h⟩

/-- The address of `/s`. -/
def boundAddr : Bytes := afUnix ++ [slash, 0x73, 0]

end Bpfvm.Sockaddr
