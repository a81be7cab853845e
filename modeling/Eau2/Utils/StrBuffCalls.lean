import Eau2.Base.Lists
import Eau2.Utils.StrCells

/-!
# String buffers under any sequence of calls

A `StrBuff` from any of its constructors, `c` of texts, of bytes and of numbers, and `get`.
Where a text is a `String`, the constructor makes room for all of its characters, and `c`
copies those in front of the first NUL.

* `Holds`: the buffer and the text in it, in an array of its own.
* `staysInside`: **every call stays inside the array and leaves room for the terminator**.
* `builds_iff`: **`get` returns all that was appended exactly when no text has a NUL.**
-/

namespace Eau2

open Bytes Heap

/-- The `size_` characters of a `String`. -/
def StringObj.chars (h : Cells) (s : StringObj) : Str := ((s.cstr.bind h.get).getD []).take s.size

theorem StringObj.Shows.chars_eq {h : Cells} {s : StringObj} {str : Str} (hs : s.Shows h str) :
    s.chars h = str := by
  obtain ⟨hsize, a, junk, hcstr, hget⟩ := hs
  rw [StringObj.chars, hcstr, Option.bind_some, hget, hsize]
  exact List.take_left

theorem StringObj.Shows.unique {h : Cells} {s : StringObj} {str str' : Str} (hs : s.Shows h str)
    (hs' : s.Shows h str') : str = str' := hs.chars_eq.symm.trans hs'.chars_eq

namespace StrBuffObj

/-- What the constructors and `c` take. -/
inductive Text
  /-- A `const char*`. -/
  | chars (s : CStr)
  /-- A `String`. -/
  | string (s : StringObj)
  deriving DecidableEq

/-- `c(const char*)` and `c(String&)` -/
def cText (mem : Junk UInt8) (t : Text) (b : StrBuffObj) (h : Cells) :
    Option (StrBuffObj × Cells) :=
  match t with
  | .chars s => b.c mem s.val h
  | .string s => do
    let a ← s.cstr
    b.cAt mem a h

def new (mem : Junk UInt8) (h : Cells) : StrBuffObj × Cells :=
  let (val, h) := h.alloc mem 10
  (⟨val, 10, 0⟩, h)

/-- `StrBuff(const char*)` -/
def ofChars (mem : Junk UInt8) (s : CStr) (h : Cells) : Option (StrBuffObj × Cells) :=
  let (val, h) := h.alloc mem (s.val.length + 1)
  c mem s.val ⟨val, s.val.length + 1, 0⟩ h

inductive Ctor
  | new
  | of (t : Text)
  deriving DecidableEq

def build (mem : Junk UInt8) (h : Cells) : Ctor → Option (StrBuffObj × Cells)
  | .new => some (new mem h)
  | .of (.chars s) => ofChars mem s h
  | .of (.string s) => ofString mem s h

/-- A call of `c`. -/
inductive Arg
  | text (t : Text)
  | bytes (str : List UInt8)
  | num (v : SizeT)
  deriving DecidableEq

def append (mem : Junk UInt8) (p : StrBuffObj × Cells) : Arg → Option (StrBuffObj × Cells)
  | .text t => p.1.cText mem t p.2
  | .bytes str => p.1.cBytes mem str p.2
  | .num v => p.1.cNum mem v.toNat p.2

def run (mem : Junk UInt8) (h : Cells) (k : Ctor) (args : List Arg) :
    Option (StrBuffObj × Cells) := do
  let p ← build mem h k
  args.foldlM (append mem) p

/-! ### What is appended -/

/-- A `String` is one with an array. -/
def Text.Valid (h : Cells) : Text → Prop
  | .chars _ => True
  | .string s => ∃ str, s.Shows h str

def Text.val (h : Cells) : Text → Str
  | .chars s => s.val
  | .string s => s.chars h

def Arg.Valid (h : Cells) : Arg → Prop
  | .text t => t.Valid h
  | _ => True

/-- The bytes that a call is to append. -/
def Arg.val (h : Cells) : Arg → List UInt8
  | .text t => t.val h
  | .bytes str => str
  | .num v => decimal v.toNat

def Arg.Plain (h : Cells) : Arg → Prop
  | .text t => NulFree (t.val h)
  | _ => True

def Ctor.args : Ctor → List Arg
  | .new => []
  | .of t => [.text t]

def appended (h : Cells) (k : Ctor) (args : List Arg) : List UInt8 :=
  (k.args ++ args).flatMap (Arg.val h)

/-- There is room for a terminator, in an array of `capacity_` cells. -/
structure Safe (h : Cells) (b : StrBuffObj) : Prop where
  room : b.size < b.capacity
  allocated : ∃ cells, h.get b.val = some cells ∧ cells.length = b.capacity

/-- Every call returns and leaves a safe buffer, and so does a `get` then; `capacity_` is so
small that no `size_t` overflows. -/
def StaysInside (mem : Junk UInt8) (h : Cells) (k : Ctor) (args : List Arg) : Prop :=
  ∀ made, made <+: args → ∃ b h₁ res b₂ h₂, run mem h k made = some (b, h₁) ∧ b.Safe h₁ ∧
    b.get mem h₁ = some (res, b₂, h₂) ∧ b₂.Safe h₂ ∧
    b₂.capacity ≤ 2 * ((appended h k made).length + 10)

/-- The string that `get` returns shows all that was appended. -/
def Builds (mem : Junk UInt8) (h : Cells) (k : Ctor) (args : List Arg) : Prop :=
  ∃ b h₁ res b₂ h₂, run mem h k args = some (b, h₁) ∧ b.get mem h₁ = some (res, b₂, h₂) ∧
    res.Shows h₂ (appended h k args)

/-! ### Growth -/

theorem growBy_capacity_le (step : Nat) (sb : StrBuff) :
    (sb.growBy step).capacity ≤ max sb.capacity (2 * (step + sb.size)) := by
  rw [StrBuff.growBy]
  split
  · exact le_max_left _ _
  · show (if step + sb.size ≥ sb.capacity * 2 then sb.capacity * 2 + step else sb.capacity * 2) ≤ _
    split <;> omega

theorem cBytes_capacity {sb sb' : StrBuff} {str : List UInt8} (h : sb.cBytes str = some sb') :
    sb'.capacity = (sb.growBy str.length).capacity := by
  rw [StrBuff.cBytes] at h
  obtain ⟨-, he⟩ := Option.ite_none_right_eq_some.mp h
  cases he
  rfl

theorem get_capacity {sb sb' : StrBuff} {str : Str} (h : sb.get = some (str, sb')) :
    sb'.capacity = (sb.growBy 1).capacity := by
  rw [StrBuff.get] at h
  obtain ⟨-, he⟩ := Option.ite_none_right_eq_some.mp h
  cases he
  rfl

/-! ### The buffer and its text -/

/-- The buffer holds `text`, in an array that was not there at the start; `n` bytes were to be
appended. -/
structure Holds (h₀ : Cells) (p : StrBuffObj × Cells) (text : List UInt8) (n : Nat) : Prop where
  shows : ∃ sb : StrBuff, p.1.Shows p.2 sb ∧ sb.Fits ∧ sb.val = text ∧ sb.capacity ≤ 2 * (n + 10)
  length_le : text.length ≤ n
  keeps : Keeps h₀ p.2
  apart : h₀.get p.1.val = none

section Holds

variable {mem : Junk UInt8} {h₀ h : Cells} {b : StrBuffObj} {text : List UInt8} {n n' : Nat}

theorem safe_of_shows {sb : StrBuff} (hs : b.Shows h sb) (hfits : sb.Fits) : b.Safe h := by
  obtain ⟨hcap, hsize, cells, hget, hlen, -⟩ := hs
  refine ⟨?_, cells, hget, hlen.trans hcap.symm⟩
  rw [hsize, hcap]
  exact hfits

theorem Holds.safe (hh : Holds h₀ (b, h) text n) : b.Safe h := by
  obtain ⟨sb, hs, hfits, -⟩ := hh.shows
  exact safe_of_shows hs hfits

theorem Holds.grown (hh : Holds h₀ (b, h) text n) {sb sb' : StrBuff} (hfits : sb.Fits)
    (hval : sb.val = text) (hcap : sb.capacity ≤ 2 * (n + 10)) {str : List UInt8}
    (hc : sb.cBytes str = some sb') {b' : StrBuffObj} {h' : Cells} (hs' : b'.Shows h' sb')
    (hm : Moved h b h' b') (hn : n ≤ n') (hlen : text.length + str.length ≤ n') :
    Holds h₀ (b', h') (text ++ str) n' where
  shows := by
    obtain ⟨sb₁, hc₁, hfits₁, hval₁⟩ := StrBuff.cBytes_spec hfits str
    cases hc.symm.trans hc₁
    refine ⟨sb', hs', hfits₁, hval₁.trans (by rw [hval]), ?_⟩
    have hle := growBy_capacity_le str.length sb
    have hsize : sb.size = text.length := congrArg List.length hval
    rw [cBytes_capacity hc]
    omega
  length_le := by
    rw [List.length_append]
    exact hlen
  keeps := by
    intro a cells ha
    refine hm.keeps a cells ?_ (hh.keeps a cells ha)
    rintro rfl
    rw [hh.apart] at ha
    cases ha
  apart := by
    rcases hm.val with hval' | hnew
    · rw [hval']
      exact hh.apart
    · cases hb : h₀.get b'.val with
      | none => rfl
      | some cells =>
        rw [hh.keeps _ _ hb] at hnew
        cases hnew

theorem Holds.cBytes (hh : Holds h₀ (b, h) text n) (mem : Junk UInt8) {str : List UInt8}
    (hn : n ≤ n') (hlen : text.length + str.length ≤ n') :
    ∃ p, b.cBytes mem str h = some p ∧ Holds h₀ p (text ++ str) n' := by
  obtain ⟨sb, hs, hfits, hval, hcap⟩ := hh.shows
  obtain ⟨b', h', sb', hc, hc', hs', hm⟩ := cBytes_spec mem hs hfits str
  exact ⟨(b', h'), hc, hh.grown hfits hval hcap hc' hs' hm hn hlen⟩

theorem exists_cstr_append (str junk : Str) : ∃ rest, str ++ 0 :: junk = cstr str ++ 0 :: rest := by
  induction str with
  | nil => exact ⟨junk, rfl⟩
  | cons c str ih =>
    by_cases hc : c = 0
    · subst hc
      exact ⟨str ++ 0 :: junk, by simp [cstr]⟩
    · obtain ⟨rest, hrest⟩ := ih
      refine ⟨rest, ?_⟩
      rw [List.cons_append, hrest]
      simp [cstr, hc]

/-- **Of a text `c` appends what stands in front of the first NUL.** -/
theorem Holds.cText (hh : Holds h₀ (b, h) text n) (mem : Junk UInt8) {t : Text}
    (ht : t.Valid h₀) (hn : n ≤ n') (hlen : text.length + (t.val h₀).length ≤ n') :
    ∃ p, b.cText mem t h = some p ∧ Holds h₀ p (text ++ cstr (t.val h₀)) n' := by
  have hcstr : (cstr (t.val h₀)).length ≤ (t.val h₀).length :=
    (List.takeWhile_prefix _).length_le
  cases t with
  | chars s => exact hh.cBytes mem hn (show _ + (cstr s.val).length ≤ _ from
      (Nat.add_le_add_left hcstr _).trans hlen)
  | string s =>
    obtain ⟨str, hs⟩ := ht
    have hval : Text.val h₀ (.string s) = str := hs.chars_eq
    rw [hval] at hlen hcstr ⊢
    obtain ⟨-, a, junk, ha, hget⟩ := hs
    obtain ⟨rest, hrest⟩ := exists_cstr_append str junk
    have hget' : h.get a = some (cstr str ++ 0 :: rest) := by
      rw [← hrest]
      exact hh.keeps a _ hget
    have hne : a ≠ b.val := by
      rintro rfl
      rw [hh.apart] at hget
      cases hget
    obtain ⟨sb, hs, hfits, hval, hcap⟩ := hh.shows
    obtain ⟨b', h', sb', hc, hc', hs', hm⟩ :=
      cAt_spec mem hs hfits hget' (cstr_nulFree str) hne
    rw [StrBuff.c, cstr_of_nulFree (cstr_nulFree str)] at hc'
    refine ⟨(b', h'), ?_, hh.grown hfits hval hcap hc' hs' hm hn (by omega)⟩
    rw [StrBuffObj.cText, ha]
    exact hc

theorem holds_alloc (mem : Junk UInt8) {cap : Nat} (hpos : 0 < cap) (hcap : cap ≤ 2 * (n + 10)) :
    Holds h₀ (⟨h₀.length, cap, 0⟩, (h₀.alloc mem cap).2) [] n where
  shows := ⟨⟨[], cap⟩, ⟨rfl, rfl, _, get_alloc mem cap h₀, Vector.length_toList,
    List.nil_prefix⟩, hpos, rfl, hcap⟩
  length_le := Nat.zero_le _
  keeps := keeps_alloc mem cap h₀
  apart := get_length h₀

/-- **`get` stays inside the array as well, and its string shows the text.** -/
theorem Holds.get (hh : Holds h₀ (b, h) text n) (mem : Junk UInt8) :
    ∃ res b₂ h₂, b.get mem h = some (res, b₂, h₂) ∧ b₂.Safe h₂ ∧ b₂.capacity ≤ 2 * (n + 10) ∧
      res.Shows h₂ text := by
  obtain ⟨sb, hs, hfits, hval, hcap⟩ := hh.shows
  obtain ⟨b', h', sb', junk, hget, hget', hs', -, hcells, -, -⟩ := get_spec mem hs hfits
  obtain ⟨sb₁, hget₁, hfits₁, -⟩ := StrBuff.get_spec hfits
  cases hget'.symm.trans hget₁
  refine ⟨_, b', h', hget, safe_of_shows hs' hfits₁, ?_, ?_⟩
  · have hle := growBy_capacity_le 1 sb
    have hsize : sb.size = text.length := congrArg List.length hval
    have hlen := hh.length_le
    rw [hs'.1, get_capacity hget']
    omega
  · rw [← hval]
    exact ⟨rfl, b'.val, junk, rfl, hcells⟩

end Holds

/-! ### All calls -/

def Arg.shown (h : Cells) : Arg → List UInt8
  | .text t => cstr (t.val h)
  | .bytes str => str
  | .num v => decimal v.toNat

theorem Arg.shown_isPrefix (h : Cells) (arg : Arg) : arg.shown h <+: arg.val h := by
  cases arg with
  | text t => exact List.takeWhile_prefix _
  | bytes str => exact List.prefix_refl _
  | num v => exact List.prefix_refl _

theorem Arg.shown_eq_iff {h : Cells} {arg : Arg} : arg.shown h = arg.val h ↔ arg.Plain h := by
  cases arg with
  | text t =>
    constructor
    · intro heq
      have hfree := cstr_nulFree (t.val h)
      have hcstr : cstr (t.val h) = t.val h := heq
      rwa [hcstr] at hfree
    · exact cstr_of_nulFree
  | bytes str => exact iff_of_true rfl trivial
  | num v => exact iff_of_true rfl trivial

variable {mem : Junk UInt8} {h : Cells}

theorem append_holds {p : StrBuffObj × Cells} {text : List UInt8} {n : Nat}
    (hh : Holds h p text n) {arg : Arg} (harg : arg.Valid h) :
    ∃ p', append mem p arg = some p' ∧
      Holds h p' (text ++ arg.shown h) (n + (arg.val h).length) := by
  have hlen := hh.length_le
  cases arg with
  | text t => exact hh.cText mem harg (Nat.le_add_right _ _) (Nat.add_le_add_right hlen _)
  | bytes str => exact hh.cBytes mem (Nat.le_add_right _ _) (Nat.add_le_add_right hlen _)
  | num v =>
    have hc : p.1.cNum mem v.toNat p.2 = p.1.cBytes mem (decimal v.toNat) p.2 := by
      rw [cNum, c, cstr_of_nulFree (decimal_nulFree _)]
    obtain ⟨p', hp', hh'⟩ := hh.cBytes mem (Nat.le_add_right n (decimal v.toNat).length)
      (Nat.add_le_add_right hlen _)
    exact ⟨p', hc.trans hp', hh'⟩

theorem build_holds {k : Ctor} (hk : ∀ arg ∈ k.args, arg.Valid h) : ∃ p, build mem h k = some p ∧
    Holds h p (k.args.flatMap (Arg.shown h)) (k.args.flatMap (Arg.val h)).length := by
  cases k with
  | new => exact ⟨_, rfl, holds_alloc mem (by decide) (show 10 ≤ 2 * (0 + 10) by decide)⟩
  | of t =>
    have ht : t.Valid h := hk (.text t) List.mem_cons_self
    have hroom : (t.val h).length + 1 ≤ 2 * ((t.val h).length + 10) := by omega
    have hnew := @holds_alloc h _ mem _ (Nat.succ_pos _) hroom
    obtain ⟨p, hp, hh⟩ := hnew.cText mem ht le_rfl (Nat.zero_add _).le
    refine ⟨p, ?_, ?_⟩
    · cases t with
      | chars s => exact hp
      | string s =>
        obtain ⟨str, hs⟩ := ht
        have hsize : s.size = (Text.val h (.string s)).length := by
          rw [hs.1]
          exact congrArg List.length hs.chars_eq.symm
        rw [← hsize] at hp
        exact hp
    · rw [Ctor.args, List.flatMap_singleton, List.flatMap_singleton]
      exact hh

theorem foldlM_holds {args : List Arg} (hargs : ∀ arg ∈ args, arg.Valid h)
    {p : StrBuffObj × Cells} {text : List UInt8} {n : Nat} (hh : Holds h p text n) :
    ∃ p', args.foldlM (append mem) p = some p' ∧
      Holds h p' (text ++ args.flatMap (Arg.shown h))
        (n + (args.flatMap (Arg.val h)).length) := by
  induction args generalizing p text n with
  | nil =>
    refine ⟨p, rfl, ?_⟩
    rw [List.flatMap_nil, List.append_nil]
    exact hh
  | cons arg args ih =>
    obtain ⟨p₁, hp₁, h₁⟩ := append_holds hh (hargs arg List.mem_cons_self)
    obtain ⟨p', hp', h'⟩ := ih (fun arg' hmem => hargs arg' (List.mem_cons_of_mem arg hmem)) h₁
    refine ⟨p', ?_, ?_⟩
    · rw [List.foldlM_cons, hp₁]
      exact hp'
    · rw [List.flatMap_cons, List.flatMap_cons, List.length_append, ← List.append_assoc,
        ← Nat.add_assoc]
      exact h'

/-- **A run leaves what stands in front of the NULs.** -/
theorem run_holds {k : Ctor} {args : List Arg} (hvalid : ∀ arg ∈ k.args ++ args, arg.Valid h) :
    ∃ p, run mem h k args = some p ∧
      Holds h p ((k.args ++ args).flatMap (Arg.shown h)) (appended h k args).length := by
  obtain ⟨hk, hargs⟩ := List.forall_mem_append.mp hvalid
  obtain ⟨p₀, hbuild, h₀⟩ := @build_holds mem h k hk
  obtain ⟨p, hrun, hp⟩ := @foldlM_holds mem h args hargs p₀ _ _ h₀
  refine ⟨p, ?_, ?_⟩
  · rw [run, hbuild]
    exact hrun
  · rw [appended, List.flatMap_append, List.flatMap_append, List.length_append]
    exact hp

theorem staysInside {k : Ctor} {args : List Arg} (hvalid : ∀ arg ∈ k.args ++ args, arg.Valid h) :
    StaysInside mem h k args := by
  intro made hmade
  have hmem : ∀ arg ∈ k.args ++ made, arg.Valid h := by
    intro arg harg
    refine hvalid arg ?_
    rcases List.mem_append.mp harg with hk | hm
    · exact List.mem_append_left _ hk
    · exact List.mem_append_right _ (hmade.subset hm)
  obtain ⟨⟨b, h₁⟩, hrun, hh⟩ := @run_holds mem h k made hmem
  obtain ⟨res, b₂, h₂, hget, hsafe, hcap, -⟩ := hh.get mem
  exact ⟨b, h₁, res, b₂, h₂, hrun, hh.safe, hget, hsafe, hcap⟩

theorem builds_iff_plain {k : Ctor} {args : List Arg}
    (hvalid : ∀ arg ∈ k.args ++ args, arg.Valid h) :
    Builds mem h k args ↔ ∀ arg ∈ k.args ++ args, arg.Plain h := by
  obtain ⟨⟨b, h₁⟩, hrun, hh⟩ := @run_holds mem h k args hvalid
  obtain ⟨res, b₂, h₂, hget, -, -, hshows⟩ := hh.get mem
  have hsame : Builds mem h k args ↔
      (k.args ++ args).flatMap (Arg.shown h) = (k.args ++ args).flatMap (Arg.val h) := by
    constructor
    · rintro ⟨b', h₁', res', b₂', h₂', hrun', hget', hshows'⟩
      cases hrun.symm.trans hrun'
      cases hget.symm.trans hget'
      exact hshows.unique hshows'
    · intro heq
      rw [heq] at hshows
      exact ⟨b, h₁, res, b₂, h₂, hrun, hget, hshows⟩
  rw [hsame, flatMap_eq_iff_of_isPrefix fun arg _ => Arg.shown_isPrefix h arg]
  exact forall₂_congr fun _ _ => Arg.shown_eq_iff

/-- **No call leaves the array; `get` returns all that was appended exactly when no text has a
NUL** among its characters. -/
theorem builds_iff (mem : Junk UInt8) (h : Cells) (k : Ctor) (args : List Arg)
    (hvalid : ∀ arg ∈ k.args ++ args, arg.Valid h) : StaysInside mem h k args ∧
      (Builds mem h k args ↔ ∀ arg ∈ k.args ++ args, arg.Plain h) :=
  ⟨staysInside hvalid, builds_iff_plain hvalid⟩

/-- `StrBuff("a")`, then two bytes, a `String("b")` and `7`. -/
theorem builds_iff_pieces : StaysInside (fun _ n => Vector.replicate n 0) [some [98, 0]]
      (.of (.chars ⟨[97], CStr.nulFree_a⟩)) [.bytes [0, 1], .text (.string ⟨some 0, 1⟩), .num 7] ∧
    Builds (fun _ n => Vector.replicate n 0) [some [98, 0]]
      (.of (.chars ⟨[97], CStr.nulFree_a⟩)) [.bytes [0, 1], .text (.string ⟨some 0, 1⟩), .num 7] := by
  have hiff := builds_iff (fun _ n => Vector.replicate n 0) [some [98, 0]]
    (.of (.chars ⟨[97], CStr.nulFree_a⟩)) [.bytes [0, 1], .text (.string ⟨some 0, 1⟩), .num 7] (by
      simp only [Ctor.args, List.cons_append, List.nil_append, List.forall_mem_cons]
      exact ⟨trivial, trivial, ⟨[98], rfl, 0, [], rfl, rfl⟩, trivial, List.forall_mem_nil _⟩)
  refine ⟨hiff.1, hiff.2.mpr ?_⟩
  simp only [Ctor.args, List.cons_append, List.nil_append, List.forall_mem_cons]
  exact ⟨CStr.nulFree_a, trivial, CStr.nulFree_b, trivial, List.forall_mem_nil _⟩

/-- `String("a\0b", 3)` is appended to `StrBuff()`. -/
theorem not_builds_nul : ¬ Builds (fun _ n => Vector.replicate n 0) [some [97, 0, 98, 0]] .new
    [.text (.string ⟨some 0, 3⟩)] := by
  intro hbuilds
  have hvalid : ∀ arg ∈ Ctor.new.args ++ [Arg.text (.string ⟨some 0, 3⟩)],
      arg.Valid [some [97, 0, 98, 0]] :=
    List.forall_mem_singleton.mpr ⟨[97, 0, 98], rfl, 0, [], rfl, rfl⟩
  have hplain : NulFree [97, 0, 98] := (builds_iff_plain hvalid).mp hbuilds _ List.mem_cons_self
  exact hplain (by decide)

end StrBuffObj

end Eau2
