import Mathlib.Data.Nat.Basic
import Mathlib.Tactic.Common

/-! Numbered entries on chains: the heads of the chains, and for each entry the next one on its
    chain. The number 0 ends a chain. Then lists whose links are kept in the places they connect. -/

namespace machine.chains

/-- The entries that are met from one on, up to the end of the chain. -/
inductive Path (next : Nat → Nat) : Nat → List Nat → Prop
  | nil : Path next 0 []
  | cons {i : Nat} {l : List Nat} (hne : i ≠ 0) (hrest : Path next (next i) l) : Path next i (i :: l)

section path

variable {next next' : Nat → Nat} {i : Nat} {l l' : List Nat}

theorem Path.unique (h : Path next i l) (h' : Path next i l') : l = l' := by
  induction h generalizing l' with
  | nil =>
    cases h' with
    | nil => rfl
    | cons hne _ => exact absurd rfl hne
  | cons hne _ ih =>
    cases h' with
    | nil => exact absurd rfl hne
    | cons _ hrest => rw [ih hrest]

theorem Path.congr (h : Path next i l) (heq : ∀ j ∈ l, next' j = next j) : Path next' i l := by
  induction h with
  | nil => exact .nil
  | cons hne hrest ih =>
    refine .cons hne ?_
    rw [heq _ List.mem_cons_self]
    exact ih fun j hj => heq j (List.mem_cons_of_mem _ hj)

theorem Path.ne_zero (h : Path next i l) : ∀ j ∈ l, j ≠ 0 := by
  induction h with
  | nil => exact fun j hj => absurd hj List.not_mem_nil
  | cons hne _ ih =>
    intro j hj
    rcases List.mem_cons.mp hj with rfl | hj
    · exact hne
    · exact ih j hj

/-- The first entry on a chain that passes a test, or 0; the fuel bounds the length of the chain. -/
def walk (next : Nat → Nat) (p : Nat → Bool) : Nat → Nat → Option Nat
  | _, 0 => some 0
  | 0, _ + 1 => none
  | fuel + 1, i + 1 => if p (i + 1) then some (i + 1) else walk next p fuel (next (i + 1))

theorem Path.walk_eq (h : Path next i l) (p : Nat → Bool) {fuel : Nat} (hfuel : l.length ≤ fuel) :
    walk next p fuel i = some ((l.find? p).getD 0) := by
  induction h generalizing fuel with
  | nil =>
    cases fuel with
    | zero => rfl
    | succ fuel => rfl
  | @cons i l hne hrest ih =>
    rw [List.length_cons] at hfuel
    cases fuel with
    | zero => omega
    | succ fuel =>
      obtain ⟨j, rfl⟩ := Nat.exists_eq_succ_of_ne_zero hne
      rw [Nat.succ_eq_add_one, walk, List.find?_cons]
      cases hp : p (j + 1) with
      | true => rfl
      | false =>
        rw [if_neg (by decide)]
        exact ih (by omega)

end path

section members

variable {κ : Type} [DecidableEq κ] (key : Nat → Option κ)

/-- The entries below `n` that belong on the chain `h`, the last first. -/
def members : Nat → κ → List Nat
  | 0, _ => []
  | n + 1, h => if key n = some h then n :: members n h else members n h

variable {key} {n : Nat} {h : κ}

attribute [local simp] members in
theorem mem_members {i : Nat} : i ∈ members key n h ↔ i < n ∧ key i = some h := by
  induction n with
  | zero => exact iff_of_false List.not_mem_nil fun hi => absurd hi.1 (Nat.not_lt_zero i)
  | succ n ih =>
    rw [members]
    split
    · rename_i hn
      rw [List.mem_cons, ih]
      constructor
      · rintro (rfl | ⟨hlt, hi⟩)
        · exact ⟨Nat.lt_succ_self _, hn⟩
        · exact ⟨by omega, hi⟩
      · rintro ⟨hlt, hi⟩
        by_cases hin : i = n
        · exact .inl hin
        · exact .inr ⟨by omega, hi⟩
    · rename_i hn
      rw [ih]
      constructor
      · rintro ⟨hlt, hi⟩
        exact ⟨by omega, hi⟩
      · rintro ⟨hlt, hi⟩
        refine ⟨?_, hi⟩
        by_contra hge
        exact hn ((show i = n by omega) ▸ hi)

theorem nodup_members : (members key n h).Nodup := by
  induction n with
  | zero => exact List.nodup_nil
  | succ n ih =>
    rw [members]
    split
    · exact List.nodup_cons.mpr ⟨fun hmem => absurd (mem_members.mp hmem).1 (lt_irrefl n), ih⟩
    · exact ih

theorem length_members_le : (members key n h).length ≤ n := by
  induction n with
  | zero => exact le_rfl
  | succ n ih =>
    rw [members]
    split
    · rw [List.length_cons]
      omega
    · omega

theorem members_congr {key' : Nat → Option κ} (heq : ∀ i < n, key' i = key i) :
    members key' n h = members key n h := by
  induction n with
  | zero => rfl
  | succ n ih =>
    rw [members, members, heq n (Nat.lt_succ_self n), ih fun i hi => heq i (by omega)]

end members

section index

variable {κ : Type} [DecidableEq κ] {key key' : Nat → Option κ} {head head' : κ → Nat}
  {next next' : Nat → Nat} {n : Nat}

/-- Every chain is there and has just the entries that belong on it. -/
def Indexes (head : κ → Nat) (next : Nat → Nat) (key : Nat → Option κ) (n : Nat) : Prop :=
  ∀ h, Path next (head h) (members key n h)

theorem Indexes.congr (hindex : Indexes head next key n) (hhead : ∀ h, head' h = head h)
    (hnext : ∀ i < n, next' i = next i) (hkey : ∀ i < n, key' i = key i) : Indexes head' next' key' n := by
  intro h
  rw [hhead, members_congr hkey]
  exact (hindex h).congr fun i hi => hnext i (mem_members.mp hi).1

/-- No entry yet but the one with the number 0. -/
theorem indexes_one (hhead : ∀ h, head h = 0) (hkey : key 0 = none) : Indexes head next key 1 := by
  intro h
  have hnil : members key 1 h = [] := by
    rw [members, hkey, if_neg (by simp)]
    rfl
  rw [hhead, hnil]
  exact .nil

/-- The next entry goes to the front of its chain. -/
theorem Indexes.push (hindex : Indexes head next key n) (hn : n ≠ 0) {k : κ} (hk : key n = some k)
    (hhead : ∀ h, head' h = if h = k then n else head h) (hnext : ∀ i < n, next' i = next i)
    (hlast : next' n = head k) : Indexes head' next' key (n + 1) := by
  intro h
  have hold : Path next' (head h) (members key n h) :=
    (hindex h).congr fun i hi => hnext i (mem_members.mp hi).1
  rw [hhead, members, hk]
  by_cases heq : h = k
  · subst heq
    rw [if_pos rfl, if_pos rfl]
    exact .cons hn (hlast ▸ hold)
  · rw [if_neg heq, if_neg fun h => heq (Option.some.inj h).symm]
    exact hold

/-- An entry that belongs on no chain. -/
theorem Indexes.skip (hindex : Indexes head next key n) (hk : key n = none) (hhead : ∀ h, head' h = head h)
    (hnext : ∀ i < n, next' i = next i) : Indexes head' next' key (n + 1) := by
  intro h
  rw [hhead, members, hk, if_neg (by simp)]
  exact (hindex h).congr fun i hi => hnext i (mem_members.mp hi).1

/-- A walk along the chain of a key finds the last entry that passes the test. -/
theorem Indexes.walk_spec (hindex : Indexes head next key n) (k : κ) (p : Nat → Bool) :
    ∃ i, walk next p n (head k) = some i ∧
      ((i ≠ 0 ∧ i < n ∧ key i = some k ∧ p i = true) ∨ i = 0 ∧ ∀ j < n, key j = some k → p j = false) := by
  refine ⟨_, (hindex k).walk_eq p length_members_le, ?_⟩
  cases hfind : (members key n k).find? p with
  | none =>
    refine .inr ⟨rfl, fun j hj hkey => ?_⟩
    have := List.find?_eq_none.mp hfind j (mem_members.mpr ⟨hj, hkey⟩)
    simpa using this
  | some i =>
    obtain ⟨hlt, hkey⟩ := mem_members.mp (List.mem_of_find?_eq_some hfind)
    exact .inl ⟨(hindex k).ne_zero i (List.mem_of_find?_eq_some hfind), hlt, hkey, List.find?_some hfind⟩

end index

end machine.chains

namespace machine.threaded

variable {A : Type} {link link' : A → A} {nil t v x : A} {l m : List A}

/-- From `t` on, the places `l` are linked one to the next, and the last one to `nil`. -/
def Threads (link : A → A) (nil : A) : A → List A → Prop
  | t, [] => t = nil
  | t, x :: xs => t = x ∧ x ≠ nil ∧ Threads link nil (link x) xs

namespace Threads

theorem congr (h : Threads link nil t l) (hsame : ∀ x ∈ l, link' x = link x) :
    Threads link' nil t l := by
  induction l generalizing t with
  | nil => exact h
  | cons x xs ih =>
    obtain ⟨ht, hx, hrest⟩ := h
    refine ⟨ht, hx, ?_⟩
    rw [hsame x List.mem_cons_self]
    exact ih hrest fun y hy => hsame y (List.mem_cons_of_mem x hy)

/-- A place that is linked to the head of a list is put in front of it. -/
theorem push (h : Threads link nil t l) (hx : x ≠ nil) (hlink : link x = t) :
    Threads link nil x (x :: l) :=
  ⟨rfl, hx, by rwa [hlink]⟩

theorem eq_nil_iff (h : Threads link nil t l) : t = nil ↔ l = [] := by
  cases l with
  | nil => exact ⟨fun _ => rfl, fun _ => h⟩
  | cons x xs =>
    obtain ⟨rfl, hx, -⟩ := h
    simp [hx]

/-- A list is put behind another one by linking the last place of that one to it. -/
theorem append (h : Threads link nil t l) (hl : l ≠ []) (h' : Threads link nil v m)
    (hlast : link' (l.getLast hl) = v)
    (hfront : ∀ x ∈ l.dropLast, link' x = link x) (hback : ∀ x ∈ m, link' x = link x) :
    Threads link' nil t (l ++ m) := by
  induction l generalizing t with
  | nil => exact absurd rfl hl
  | cons x xs ih =>
    obtain ⟨ht, hx, hrest⟩ := h
    refine ⟨ht, hx, ?_⟩
    cases xs with
    | nil =>
      rw [List.getLast_singleton] at hlast
      rw [hlast]
      exact h'.congr hback
    | cons y ys =>
      rw [hfront x List.mem_cons_self]
      exact ih hrest (List.cons_ne_nil y ys) hlast
        fun z hz => hfront z (List.mem_cons_of_mem x hz)

end Threads

end machine.threaded
