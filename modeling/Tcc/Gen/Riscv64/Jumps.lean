import Tcc.Bytes
import Tcc.Gen.Riscv64.Branch
import Tcc.Gen.Riscv64.FrameRun
import Tcc.Machine.Chains

open machine.rv64 machine.threaded

namespace tcc.riscv64.jumps

/-- The text section that code is generated into, and the place of the next instruction. -/
structure Text where
  data : Bytes
  ind : Nat

/-- The word at a place of the text section. -/
def word (data : Bytes) (x : BitVec 32) : BitVec 32 := read32le data x.toNat

/-- `o`: one more word. `ind` is an `int`. -/
def o (nocode_wanted : Bool) (c : Word) (text : Text) : Option Text :=
  if nocode_wanted then some text
  else if text.ind + 4 < 2 ^ 31 then some ⟨write32le text.data text.ind c, text.ind + 4⟩
  else none

/-- `gjmp`: a jump without target, which becomes the head of the chain `t`. -/
def gjmp (nocode_wanted : Bool) (t : BitVec 32) (text : Text) : Option (BitVec 32 × Text) :=
  if nocode_wanted then some (t, text)
  else (o nocode_wanted t text).map fun text' => (BitVec.ofNat 32 (text'.ind - 4), text')

/-- `gjmp_cond`: the branch over a jump, and the jump. -/
def gjmp_cond (nocode_wanted : Bool) (op : Op) (a b : BitVec 5) (t : BitVec 32) (text : Text) :
    Option (BitVec 32 × Text) := do
  let branch ← riscv64.gjmp_cond op a b
  let text' ← o nocode_wanted branch text
  gjmp nocode_wanted t text'

/-- The last jump of the chain that starts at `n1`. -/
def chain_end (data : Bytes) : Nat → BitVec 32 → Option (BitVec 32)
  | 0, _ => none
  | fuel + 1, n1 =>
    let n2 := word data n1
    if n2 ≠ 0#32 then chain_end data fuel n2 else some n1

/-- `gjmp_append`: the chain `n` continued by the chain `t`. -/
def gjmp_append (fuel : Nat) (data : Bytes) (n t : BitVec 32) : Option (BitVec 32 × Bytes) :=
  if n ≠ 0#32 then
    (chain_end data fuel n).map fun p => (n, write32le data p.toNat t)
  else some (t, data)

/-- The instruction that a jump over the displacement `r` becomes: `jal`, or nothing when
    the target comes next. -/
def patch_word (r : BitVec 32) : Word := if r = 4#32 then 0x33#32 else jal r

/-- `gsym_addr`: the jumps of the chain `t` get the target `a`. -/
def gsym_addr (a : BitVec 32) : Nat → Bytes → BitVec 32 → Option (Except String Bytes)
  | 0, _, _ => none
  | fuel + 1, data, t =>
    if t ≠ 0#32 then
      let next := word data t
      let r := a - t
      if (r + 1#32 <<< 21) &&& ~~~((1#32 <<< 22) - 2#32) ≠ 0#32 then
        some (.error "out-of-range branch chain")
      else gsym_addr a fuel (write32le data t.toNat (patch_word r)) next
    else some (.ok data)

/-- The value of a chain variable, and the jumps that were put into it. -/
structure Chain where
  head : BitVec 32
  sites : List (BitVec 32)

/-- The text section and the chains whose jumps have no target yet. -/
structure State where
  text : Text
  chains : List Chain

/-- The jumps that have no target yet. -/
def State.sites (s : State) : List (BitVec 32) := s.chains.flatMap Chain.sites

/-- What happens to the chains while a function is compiled. Other code may be written
    anywhere but over a jump that has no target yet. -/
inductive Step : State → State → Prop
  | reorder {text : Text} {cs cs' : List Chain} (hperm : cs.Perm cs') : Step ⟨text, cs⟩ ⟨text, cs'⟩
  | fresh {text : Text} {cs : List Chain} : Step ⟨text, cs⟩ ⟨text, ⟨0#32, []⟩ :: cs⟩
  | code {s : State} {text' : Text} (hind : 0 < text'.ind)
      (hkeep : ∀ x ∈ s.sites, word text'.data x = word s.text.data x)
      (hbefore : ∀ x ∈ s.sites, x.toNat + 4 ≤ text'.ind) : Step s ⟨text', s.chains⟩
  | suppressed {text text' : Text} {t v : BitVec 32} {l : List (BitVec 32)} {cs : List Chain}
      (hgjmp : gjmp true t text = some (v, text')) :
      Step ⟨text, ⟨t, l⟩ :: cs⟩ ⟨text', ⟨v, l⟩ :: cs⟩
  | gjmp {text text' : Text} {t v : BitVec 32} {l : List (BitVec 32)} {cs : List Chain}
      (hgjmp : gjmp false t text = some (v, text')) :
      Step ⟨text, ⟨t, l⟩ :: cs⟩ ⟨text', ⟨v, BitVec.ofNat 32 text.ind :: l⟩ :: cs⟩
  | gjmp_cond {text text' : Text} {op : Op} {a b : BitVec 5} {t v : BitVec 32}
      {l : List (BitVec 32)} {cs : List Chain}
      (hgjmp : gjmp_cond false op a b t text = some (v, text')) :
      Step ⟨text, ⟨t, l⟩ :: cs⟩ ⟨text', ⟨v, BitVec.ofNat 32 (text.ind + 4) :: l⟩ :: cs⟩
  | gjmp_append {text : Text} {data' : Bytes} {n t v : BitVec 32} {l m : List (BitVec 32)}
      {cs : List Chain} {fuel : Nat} (happend : gjmp_append fuel text.data n t = some (v, data')) :
      Step ⟨text, ⟨n, l⟩ :: ⟨t, m⟩ :: cs⟩ ⟨⟨data', text.ind⟩, ⟨v, l ++ m⟩ :: cs⟩
  | gsym_addr {text : Text} {data' : Bytes} {t a : BitVec 32} {l : List (BitVec 32)}
      {cs : List Chain} {fuel : Nat} (hgsym : gsym_addr a fuel text.data t = some (.ok data')) :
      Step ⟨text, ⟨t, l⟩ :: cs⟩ ⟨⟨data', text.ind⟩, cs⟩

/-- The states of a compilation that starts within a section, as the body of a function
    does behind its prologue. -/
inductive Reachable : State → Prop
  | start {text : Text} (hind : 0 < text.ind) : Reachable ⟨text, []⟩
  | step {s s' : State} (hreach : Reachable s) (hstep : Step s s') : Reachable s'

/-- Two words that have no byte in common. -/
def Apart (x y : BitVec 32) : Prop := x.toNat + 4 ≤ y.toNat ∨ y.toNat + 4 ≤ x.toNat

/-- The chains are threaded through the jumps that were put into them, and these are
    different words before `ind`. -/
structure Wf (s : State) : Prop where
  threads : ∀ c ∈ s.chains, Threads (word s.text.data) 0#32 c.head c.sites
  apart : s.sites.Pairwise Apart
  before : ∀ x ∈ s.sites, x.toNat + 4 ≤ s.text.ind
  limit : ∀ x ∈ s.sites, x.toNat + 4 < 2 ^ 31
  positive : 0 < s.text.ind

theorem word_write_self (data : Bytes) (x : BitVec 32) (w : Word) :
    word (write32le data x.toNat w) x = w := read32le_write32le data x.toNat w

theorem Apart.symm {x y : BitVec 32} (h : Apart x y) : Apart y x := Or.symm h

theorem word_write_of_apart {x y : BitVec 32} (h : Apart x y) (data : Bytes) (w : Word) :
    word (write32le data x.toNat w) y = word data y :=
  (write32le_sameOutside data x.toNat w).read32le_eq (Or.symm h)

instance (r : BitVec 32) : Decidable (Near r) := inferInstanceAs (Decidable (_ ∧ _))

section

variable {a t v : BitVec 32} {data data' : Bytes} {l m : List (BitVec 32)} {fuel : Nat}

/-- The section after the jumps `l` have been given the target `a`. -/
def patched (a : BitVec 32) (data : Bytes) (l : List (BitVec 32)) : Bytes :=
  l.foldl (fun data x => write32le data x.toNat (patch_word (a - x))) data

theorem word_patched_of_apart {y : BitVec 32} (hy : ∀ x ∈ l, Apart x y) :
    word (patched a data l) y = word data y := by
  induction l generalizing data with
  | nil => rfl
  | cons x xs ih =>
    have hrest := @ih (write32le data x.toNat (patch_word (a - x)))
      fun z hz => hy z (List.mem_cons_of_mem x hz)
    exact hrest.trans (word_write_of_apart (hy x List.mem_cons_self) data _)

theorem word_patched (hapart : l.Pairwise Apart) {x : BitVec 32} (hx : x ∈ l) :
    word (patched a data l) x = patch_word (a - x) := by
  induction l generalizing data with
  | nil => cases hx
  | cons y ys ih =>
    obtain ⟨hy, hys⟩ := List.pairwise_cons.mp hapart
    obtain rfl | hx := List.mem_cons.mp hx
    · refine (word_patched_of_apart fun z hz => (hy z hz).symm).trans ?_
      exact word_write_self data x _
    · exact ih hys hx

theorem patched_outside {j : Nat} (hj : ∀ x ∈ l, j < x.toNat ∨ x.toNat + 4 ≤ j) :
    patched a data l j = data j := by
  induction l generalizing data with
  | nil => rfl
  | cons x xs ih =>
    have hrest := @ih (write32le data x.toNat (patch_word (a - x)))
      fun z hz => hj z (List.mem_cons_of_mem x hz)
    exact hrest.trans (write32le_sameOutside data x.toNat _ j (hj x List.mem_cons_self))

/-- `gsym_addr` runs to the end of the chain, unless a jump on its way is out of range. -/
theorem gsym_addr_eq (hthreads : Threads (word data) 0#32 t l) (hapart : l.Pairwise Apart)
    (hfuel : l.length < fuel) : gsym_addr a fuel data t = some
      (if ∀ x ∈ l, Near (a - x) then .ok (patched a data l)
        else .error "out-of-range branch chain") := by
  induction l generalizing data t fuel with
  | nil =>
    obtain ⟨k, rfl⟩ := Nat.exists_eq_add_of_lt hfuel
    cases (hthreads : t = 0#32)
    simp [gsym_addr, patched]
  | cons x xs ih =>
    obtain ⟨k, rfl⟩ := Nat.exists_eq_add_of_lt hfuel
    obtain ⟨rfl, hx, hrest⟩ := hthreads
    obtain ⟨hfirst, hxs⟩ := List.pairwise_cons.mp hapart
    rw [gsym_addr, if_pos hx]
    simp only
    by_cases hnear : Near (a - t)
    · rw [if_neg (not_not.mpr ((near_iff _).mpr hnear))]
      have hlinks := hrest.congr fun y hy => word_write_of_apart (hfirst y hy) data (patch_word (a - t))
      rw [ih hlinks hxs (by rw [List.length_cons]; omega)]
      simp only [List.forall_mem_cons, hnear, true_and]
      rfl
    · rw [if_pos (mt (near_iff _).mp hnear), if_neg fun hall => hnear (hall t List.mem_cons_self)]

theorem gsym_addr_mono {out : Except String Bytes} (h : gsym_addr a fuel data t = some out) (k : Nat) :
    gsym_addr a (fuel + k) data t = some out := by
  induction fuel generalizing data t with
  | zero => cases h
  | succ fuel ih =>
    rw [Nat.succ_add]
    rw [gsym_addr] at h ⊢
    split at h
    · rename_i ht
      rw [if_pos ht]
      simp only at h ⊢
      split at h
      · rename_i hfar
        rw [if_pos hfar]
        exact h
      · rename_i hnear
        rw [if_neg hnear]
        exact ih h
    · rename_i ht
      rw [if_neg ht]
      exact h

/-- What `gsym_addr` returns does not depend on the fuel. -/
theorem gsym_addr_ok (hthreads : Threads (word data) 0#32 t l) (hapart : l.Pairwise Apart)
    (h : gsym_addr a fuel data t = some (.ok data')) : data' = patched a data l := by
  have hmono := gsym_addr_mono h (l.length + 1)
  rw [gsym_addr_eq hthreads hapart (by omega)] at hmono
  split at hmono
  · cases hmono
    rfl
  · cases hmono

theorem chain_end_eq (hthreads : Threads (word data) 0#32 t l) (hl : l ≠ []) (hfuel : l.length ≤ fuel) :
    chain_end data fuel t = some (l.getLast hl) := by
  induction l generalizing t fuel with
  | nil => exact absurd rfl hl
  | cons x xs ih =>
    obtain ⟨rfl, hx, hrest⟩ := hthreads
    obtain ⟨k, rfl⟩ := Nat.exists_eq_add_of_le hfuel
    rw [List.length_cons, Nat.succ_add, chain_end]
    cases xs with
    | nil =>
      have hend : word data t = 0#32 := hrest
      rw [if_neg (not_not.mpr hend), List.getLast_singleton]
    | cons y ys =>
      have hne : word data t ≠ 0#32 := fun h0 => List.cons_ne_nil y ys (hrest.eq_nil_iff.mp h0)
      rw [if_pos hne, List.getLast_cons (List.cons_ne_nil y ys)]
      exact ih hrest (List.cons_ne_nil y ys) (Nat.le_add_right _ _)

theorem chain_end_mono {p : BitVec 32} (h : chain_end data fuel t = some p) (k : Nat) :
    chain_end data (fuel + k) t = some p := by
  induction fuel generalizing t with
  | zero => cases h
  | succ fuel ih =>
    rw [Nat.succ_add]
    rw [chain_end] at h ⊢
    split at h
    · rename_i hnext
      rw [if_pos hnext]
      exact ih h
    · rename_i hend
      rw [if_neg hend]
      exact h

/-- The section after the chain `l` has been continued by a chain that starts at `t`. -/
def appended (data : Bytes) (l : List (BitVec 32)) (t : BitVec 32) : Bytes :=
  l.getLast?.elim data fun p => write32le data p.toNat t

attribute [local simp] appended in
theorem gjmp_append_eq {n : BitVec 32} (hthreads : Threads (word data) 0#32 n l)
    (hfuel : l.length ≤ fuel) : gjmp_append fuel data n t =
      some (if l = [] then t else n, appended data l t) := by
  rw [gjmp_append, appended]
  by_cases hl : l = []
  · rw [if_neg (not_not.mpr (hthreads.eq_nil_iff.mpr hl)), if_pos hl, hl]
    rfl
  · rw [if_pos (mt hthreads.eq_nil_iff.mp hl), if_neg hl, chain_end_eq hthreads hl hfuel,
      List.getLast?_eq_some_getLast hl]
    rfl

theorem gjmp_append_mono {n : BitVec 32} {out : BitVec 32 × Bytes}
    (h : gjmp_append fuel data n t = some out) (k : Nat) :
    gjmp_append (fuel + k) data n t = some out := by
  rw [gjmp_append] at h ⊢
  split at h
  · rename_i hn
    rw [if_pos hn]
    obtain ⟨p, hp, hout⟩ := Option.map_eq_some_iff.mp h
    rw [chain_end_mono hp, Option.map_some, hout]
  · rename_i hn
    rw [if_neg hn]
    exact h

theorem word_appended_of_apart {y : BitVec 32} (hy : ∀ x ∈ l, Apart x y) :
    word (appended data l t) y = word data y := by
  rw [appended]
  cases hlast : l.getLast? with
  | none => rfl
  | some p => exact word_write_of_apart (hy p (List.mem_of_getLast? hlast)) data t

theorem appended_outside {j : Nat} (hj : ∀ x ∈ l, j < x.toNat ∨ x.toNat + 4 ≤ j) :
    appended data l t j = data j := by
  rw [appended]
  cases hlast : l.getLast? with
  | none => rfl
  | some p => exact write32le_sameOutside data p.toNat t j (hj p (List.mem_of_getLast? hlast))

/-- The sites of both chains are linked after they have been joined. -/
theorem threads_appended {n : BitVec 32} (hn : Threads (word data) 0#32 n l)
    (ht : Threads (word data) 0#32 t m) (hapart : (l ++ m).Pairwise Apart) :
    Threads (word (appended data l t)) 0#32 (if l = [] then t else n) (l ++ m) := by
  obtain ⟨hll, -, hlm⟩ := List.pairwise_append.mp hapart
  by_cases hl : l = []
  · subst hl
    exact ht
  · rw [if_neg hl]
    have hlast : appended data l t = write32le data (l.getLast hl).toNat t := by
      rw [appended, List.getLast?_eq_some_getLast hl]
      rfl
    rw [← List.dropLast_append_getLast hl] at hll
    obtain ⟨-, -, hfront⟩ := List.pairwise_append.mp hll
    refine hn.append hl ht ?_ (fun x hx => ?_) fun x hx => ?_
    · rw [hlast]
      exact word_write_self data _ t
    · rw [hlast]
      exact word_write_of_apart (hfront x hx _ (List.mem_singleton_self _)).symm data t
    · exact word_appended_of_apart fun y hy => hlm y hy x hx

end

theorem wf_start {text : Text} (hind : 0 < text.ind) : Wf ⟨text, []⟩ where
  threads _ hc := absurd hc List.not_mem_nil
  apart := List.Pairwise.nil
  before _ hx := absurd hx List.not_mem_nil
  limit _ hx := absurd hx List.not_mem_nil
  positive := hind

section

variable {text text' : Text} {c d : Chain} {cs cs' : List Chain} {t v : BitVec 32} {l : List (BitVec 32)}

theorem Wf.reorder (h : Wf ⟨text, cs⟩) (hperm : cs.Perm cs') : Wf ⟨text, cs'⟩ := by
  have hsites : (State.mk text cs).sites.Perm (State.mk text cs').sites := hperm.flatMap_right _
  exact
    { threads := fun c hc => h.threads c (hperm.mem_iff.mpr hc)
      apart := (hsites.pairwise_iff Apart.symm).mp h.apart
      before := fun x hx => h.before x (hsites.mem_iff.mpr hx)
      limit := fun x hx => h.limit x (hsites.mem_iff.mpr hx)
      positive := h.positive }

/-- Code that leaves the jumps without a target alone. -/
theorem Wf.code {s : State} (h : Wf s) (hind : 0 < text'.ind)
    (hkeep : ∀ x ∈ s.sites, word text'.data x = word s.text.data x)
    (hbefore : ∀ x ∈ s.sites, x.toNat + 4 ≤ text'.ind) : Wf ⟨text', s.chains⟩ where
  threads c hc := (h.threads c hc).congr fun x hx => hkeep x (List.mem_flatMap.mpr ⟨c, hc, hx⟩)
  apart := h.apart
  before := hbefore
  limit := h.limit
  positive := hind

theorem o_eq_some {w : Word} (ho : o false w text = some text') :
    text.ind + 4 < 2 ^ 31 ∧ text' = ⟨write32le text.data text.ind w, text.ind + 4⟩ := by
  rw [o, if_neg Bool.false_ne_true, Option.ite_none_right_eq_some, Option.some.injEq] at ho
  exact ⟨ho.1, ho.2.symm⟩

theorem gjmp_eq_some (hgjmp : gjmp false t text = some (v, text')) : text.ind + 4 < 2 ^ 31 ∧
    v = BitVec.ofNat 32 text.ind ∧ text' = ⟨write32le text.data text.ind t, text.ind + 4⟩ := by
  rw [gjmp, if_neg Bool.false_ne_true, Option.map_eq_some_iff] at hgjmp
  obtain ⟨text₁, ho, hpair⟩ := hgjmp
  obtain ⟨hlimit, rfl⟩ := o_eq_some ho
  rw [Prod.mk.injEq] at hpair
  obtain ⟨rfl, rfl⟩ := hpair
  exact ⟨hlimit, by rw [Nat.add_sub_cancel], rfl⟩

theorem Wf.o {w : Word} (h : Wf ⟨text, cs⟩) (ho : o false w text = some text') : Wf ⟨text', cs⟩ := by
  obtain ⟨-, rfl⟩ := o_eq_some ho
  refine h.code (Nat.lt_of_lt_of_le h.positive (Nat.le_add_right _ _)) (fun x hx => ?_) fun x hx => ?_
  · exact (write32le_sameOutside text.data text.ind w).read32le_eq (Or.inl (h.before x hx))
  · exact (h.before x hx).trans (Nat.le_add_right _ _)

/-- The jump at `ind` becomes the head of its chain. -/
theorem Wf.gjmp (h : Wf ⟨text, ⟨t, l⟩ :: cs⟩) (hgjmp : gjmp false t text = some (v, text')) :
    Wf ⟨text', ⟨v, BitVec.ofNat 32 text.ind :: l⟩ :: cs⟩ := by
  obtain ⟨hlimit, rfl, rfl⟩ := gjmp_eq_some hgjmp
  have hind : (BitVec.ofNat 32 text.ind).toNat = text.ind := by
    rw [BitVec.toNat_ofNat]
    omega
  have hnil : BitVec.ofNat 32 text.ind ≠ 0#32 := by
    intro h0
    have := h.positive
    rw [h0] at hind
    change 0 = text.ind at hind
    simp only at this
    omega
  have hsites : (State.mk ⟨write32le text.data text.ind t, text.ind + 4⟩
      (⟨BitVec.ofNat 32 text.ind, BitVec.ofNat 32 text.ind :: l⟩ :: cs)).sites =
      BitVec.ofNat 32 text.ind :: (State.mk text (⟨t, l⟩ :: cs)).sites := rfl
  have hapart (x : BitVec 32) (hx : x ∈ (State.mk text (⟨t, l⟩ :: cs)).sites) :
      Apart (BitVec.ofNat 32 text.ind) x := Or.inr (by rw [hind]; exact h.before x hx)
  have hkeep (x : BitVec 32) (hx : x ∈ (State.mk text (⟨t, l⟩ :: cs)).sites) :
      word (write32le text.data text.ind t) x = word text.data x :=
    (write32le_sameOutside text.data text.ind t).read32le_eq (Or.inl (h.before x hx))
  have hsplit (c : Chain) (hc : c ∈ (⟨t, l⟩ :: cs : List Chain)) :
      Threads (word (write32le text.data text.ind t)) 0#32 c.head c.sites :=
    (h.threads c hc).congr fun x hx => hkeep x (List.mem_flatMap.mpr ⟨c, hc, hx⟩)
  refine ⟨fun c hc => ?_, ?_, fun x hx => ?_, fun x hx => ?_, Nat.succ_pos _⟩
  · obtain rfl | hc := List.mem_cons.mp hc
    · refine (hsplit ⟨t, l⟩ List.mem_cons_self).push hnil ?_
      rw [word, hind, read32le_write32le]
    · exact hsplit c (List.mem_cons_of_mem _ hc)
  · rw [hsites]
    exact List.pairwise_cons.mpr ⟨hapart, h.apart⟩
  · rw [hsites] at hx
    obtain rfl | hx := List.mem_cons.mp hx
    · rw [hind]
    · exact (h.before x hx).trans (Nat.le_add_right _ _)
  · rw [hsites] at hx
    obtain rfl | hx := List.mem_cons.mp hx
    · rwa [hind]
    · exact h.limit x hx

theorem Wf.gjmp_cond {op : Op} {a b : BitVec 5} (h : Wf ⟨text, ⟨t, l⟩ :: cs⟩)
    (hgjmp : gjmp_cond false op a b t text = some (v, text')) :
    Wf ⟨text', ⟨v, BitVec.ofNat 32 (text.ind + 4) :: l⟩ :: cs⟩ := by
  simp only [jumps.gjmp_cond, Option.bind_eq_bind, Option.bind_eq_some_iff] at hgjmp
  obtain ⟨branch, -, text₁, ho, hgjmp⟩ := hgjmp
  have hind : text₁.ind = text.ind + 4 := by rw [(o_eq_some ho).2]
  rw [← hind]
  exact (h.o ho).gjmp hgjmp

/-- The first chain, apart from the sites of the others. -/
theorem Wf.uncons (h : Wf ⟨text, c :: cs⟩) : Threads (word text.data) 0#32 c.head c.sites ∧
    c.sites.Pairwise Apart ∧ Wf ⟨text, cs⟩ ∧
    ∀ x ∈ c.sites, ∀ y ∈ (State.mk text cs).sites, Apart x y := by
  have happend : (State.mk text (c :: cs)).sites = c.sites ++ (State.mk text cs).sites := rfl
  have hapart := h.apart
  have hbefore := h.before
  have hlimit := h.limit
  rw [happend] at hapart hbefore hlimit
  obtain ⟨hc, hcs, hbetween⟩ := List.pairwise_append.mp hapart
  refine ⟨h.threads c List.mem_cons_self, hc, ?_, hbetween⟩
  exact
    { threads := fun d hd => h.threads d (List.mem_cons_of_mem c hd)
      apart := hcs
      before := fun x hx => hbefore x (List.mem_append_right _ hx)
      limit := fun x hx => hlimit x (List.mem_append_right _ hx)
      positive := h.positive }

theorem Wf.gsym_addr {data' : Bytes} {a : BitVec 32} {fuel : Nat} (h : Wf ⟨text, ⟨t, l⟩ :: cs⟩)
    (hgsym : gsym_addr a fuel text.data t = some (.ok data')) : Wf ⟨⟨data', text.ind⟩, cs⟩ := by
  obtain ⟨hthreads, hl, hcs, hbetween⟩ := h.uncons
  obtain rfl := gsym_addr_ok hthreads hl hgsym
  refine hcs.code h.positive (fun y hy => ?_) hcs.before
  exact word_patched_of_apart fun x hx => hbetween x hx y hy

theorem Wf.gjmp_append {data' : Bytes} {n : BitVec 32} {m : List (BitVec 32)} {fuel : Nat}
    (h : Wf ⟨text, ⟨n, l⟩ :: ⟨t, m⟩ :: cs⟩)
    (happend : gjmp_append fuel text.data n t = some (v, data')) :
    v = (if l = [] then t else n) ∧ data' = appended text.data l t ∧
      Wf ⟨⟨data', text.ind⟩, ⟨v, l ++ m⟩ :: cs⟩ := by
  obtain ⟨hn, hl, htail, hbetween⟩ := h.uncons
  obtain ⟨ht, hm, hcs, hmcs⟩ := htail.uncons
  have hlm (x : BitVec 32) (hx : x ∈ l) (y : BitVec 32) (hy : y ∈ m) : Apart x y :=
    hbetween x hx y (List.mem_append_left _ hy)
  have hlcs (x : BitVec 32) (hx : x ∈ l) (y : BitVec 32) (hy : y ∈ (State.mk text cs).sites) :
      Apart x y := hbetween x hx y (List.mem_append_right _ hy)
  have hmono := gjmp_append_mono happend l.length
  rw [gjmp_append_eq hn (Nat.le_add_left _ _), Option.some.injEq, Prod.mk.injEq] at hmono
  obtain ⟨rfl, rfl⟩ := hmono
  have hsites : (State.mk ⟨appended text.data l t, text.ind⟩
      (⟨if l = [] then t else n, l ++ m⟩ :: cs)).sites =
      (State.mk text (⟨n, l⟩ :: ⟨t, m⟩ :: cs)).sites := List.append_assoc l m _
  refine ⟨rfl, rfl, fun c hc => ?_, ?_, fun x hx => ?_, fun x hx => ?_, h.positive⟩
  · obtain rfl | hc := List.mem_cons.mp hc
    · exact threads_appended hn ht (List.pairwise_append.mpr ⟨hl, hm, hlm⟩)
    · refine (hcs.threads c hc).congr fun y hy => word_appended_of_apart fun x hx => ?_
      exact hlcs x hx y (List.mem_flatMap.mpr ⟨c, hc, hy⟩)
  · rw [hsites]
    exact h.apart
  · rw [hsites] at hx
    exact h.before x hx
  · rw [hsites] at hx
    exact h.limit x hx

end

theorem step_wf {s s' : State} (h : Wf s) (hstep : Step s s') : Wf s' := by
  cases hstep with
  | reorder hperm => exact h.reorder hperm
  | fresh =>
    refine ⟨fun c hc => ?_, h.apart, h.before, h.limit, h.positive⟩
    obtain rfl | hc := List.mem_cons.mp hc
    · exact rfl
    · exact h.threads c hc
  | code hind hkeep hbefore => exact h.code hind hkeep hbefore
  | suppressed hgjmp =>
    rw [gjmp, if_pos rfl, Option.some.injEq, Prod.mk.injEq] at hgjmp
    obtain ⟨rfl, rfl⟩ := hgjmp
    exact h
  | gjmp hgjmp => exact h.gjmp hgjmp
  | gjmp_cond hgjmp => exact h.gjmp_cond hgjmp
  | gjmp_append happend => exact (h.gjmp_append happend).2.2
  | gsym_addr hgsym => exact h.gsym_addr hgsym

theorem reachable_wf {s : State} (hreach : Reachable s) : Wf s := by
  induction hreach with
  | start hind => exact wf_start hind
  | step _ hstep ih => exact step_wf ih hstep

end tcc.riscv64.jumps
