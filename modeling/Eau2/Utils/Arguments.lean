import Eau2.Utils.Str

/-!
# The command line

`utils/args.h`: the arguments of a run, parsed from `argv` behind the program's name.  An
option takes the argument behind it as its value, whatever that looks like, and a later
option overwrites an earlier one.  Numbers are read with `sscanf`'s `%zu`, which takes a
zero as it takes any other number.

* `scanSizeT_eq_zero`: a number is scanned as zero exactly when all its digits are.
* `parse_field`: an argument ends up with the last value given for it.
* `parse_ne_zero`: so a number is zero exactly when that value is.
* `parse_usePseudoNet`: `-pseudo` counts where an option is looked for.
-/

namespace Eau2

def text (cs : List Char) : Str := cs.map Char.toUInt8

/-! ### Scanning a number -/

def isspace (b : UInt8) : Bool := b == 32 || (9 ≤ b && b ≤ 13)

def isdigit (b : UInt8) : Bool := 48 ≤ b && b ≤ 57

/-- The digits of an unsigned number, and whether a minus sign stands before them. -/
def signed (s : Str) : Bool × Str :=
  match s with
  | [] => (false, [])
  | b :: s =>
    if b = 45 then (true, s.takeWhile isdigit)
    else if b = 43 then (false, s.takeWhile isdigit)
    else (false, (b :: s).takeWhile isdigit)

/-- The digits that `%zu` scans: white space and a sign may stand before them. -/
def numeral (s : Str) : Str := (signed (s.dropWhile isspace)).2

def isNegative (s : Str) : Bool := (signed (s.dropWhile isspace)).1

def digitsVal (ds : Str) : Nat := ds.foldl (fun n d => 10 * n + (d.toNat - 48)) 0

/-- `sscanf(s, "%zu", &val)`: as `strtoul` does, a number that does not fit is scanned as
the largest that does, and one with a minus sign is negated. -/
def scanSizeT (s : Str) : Option SizeT :=
  if numeral s = [] then none
  else if 2 ^ 64 ≤ digitsVal (numeral s) then some (UInt64.ofNat (2 ^ 64 - 1))
  else if isNegative s then some (0 - UInt64.ofNat (digitsVal (numeral s)))
  else some (UInt64.ofNat (digitsVal (numeral s)))

theorem foldl_digits_eq_zero {ds : Str} (hd : ∀ d ∈ ds, isdigit d = true) (n : Nat) :
    ds.foldl (fun n d => 10 * n + (d.toNat - 48)) n = 0 ↔ n = 0 ∧ ∀ d ∈ ds, d = 48 := by
  induction ds generalizing n with
  | nil => simp
  | cons d ds ih =>
    have hlow : 48 ≤ d.toNat := by
      have h := (Bool.and_eq_true_iff.mp (hd d List.mem_cons_self)).1
      exact UInt8.le_iff_toNat_le.mp (of_decide_eq_true h)
    have h48 : d = 48 ↔ d.toNat = 48 := by
      rw [← UInt8.toNat_inj]
      rfl
    rw [List.foldl_cons, ih (fun e he => hd e (List.mem_cons_of_mem d he)), List.forall_mem_cons,
      h48]
    constructor
    · rintro ⟨h0, hrest⟩
      exact ⟨by omega, by omega, hrest⟩
    · rintro ⟨h0, h1, hrest⟩
      exact ⟨by omega, hrest⟩

theorem isdigit_of_mem_numeral {s : Str} {d : UInt8} (h : d ∈ numeral s) : isdigit d = true := by
  unfold numeral signed at h
  split at h
  · cases h
  · split at h
    · exact List.mem_takeWhile_imp h
    · split at h
      · exact List.mem_takeWhile_imp h
      · exact List.mem_takeWhile_imp h

/-- **A number is scanned as zero exactly when all its digits are.** -/
theorem scanSizeT_eq_zero {s : Str} {v : SizeT} (h : scanSizeT s = some v) :
    v = 0 ↔ ∀ d ∈ numeral s, d = 48 := by
  have hzero : digitsVal (numeral s) = 0 ↔ ∀ d ∈ numeral s, d = 48 := by
    rw [digitsVal, foldl_digits_eq_zero fun d hd => isdigit_of_mem_numeral hd]
    exact and_iff_right rfl
  rw [← hzero]
  unfold scanSizeT at h
  split at h
  · cases h
  · split at h
    · rename_i hbig
      cases h
      exact iff_of_false (by decide) (by omega)
    · rename_i hsmall
      have hofNat : UInt64.ofNat (digitsVal (numeral s)) = 0 ↔ digitsVal (numeral s) = 0 := by
        rw [← UInt64.toNat_inj, UInt64.toNat_ofNat_of_lt' (Nat.lt_of_not_le hsmall)]
        rfl
      split at h
      · cases h
        rw [← hofNat]
        constructor
        · intro hv
          have := sub_eq_zero.mp hv
          exact this.symm
        · intro hv
          rw [hv]
          rfl
      · cases h
        exact hofNat

/-! ### Parsing -/

structure Arguments where
  appName : Option Str
  numNodes : SizeT
  index : SizeT
  ip : Option Str
  port : SizeT
  serverIp : Option Str
  serverPort : SizeT
  serverIndex : SizeT
  usePseudoNet : Bool
  blockSize : SizeT
  deriving DecidableEq, Repr

namespace Arguments

def new : Arguments := ⟨none, 1, 0, none, 8080, none, 8080, 0, false, 1024⟩

def appFlag : Str := text ['-', 'a', 'p', 'p']
def numNodesFlag : Str := text ['-', 'n', 'u', 'm', '_', 'n', 'o', 'd', 'e', 's']
def indexFlag : Str := text ['-', 'i']
def ipFlag : Str := text ['-', 'i', 'p']
def portFlag : Str := text ['-', 'p', 'o', 'r', 't']
def serverIndexFlag : Str := text ['-', 's', 'e', 'r', 'v', 'e', 'r', 'I', 'd', 'x']
def serverIpFlag : Str := text ['-', 's', 'e', 'r', 'v', 'e', 'r', 'I', 'p']
def serverPortFlag : Str := text ['-', 's', 'e', 'r', 'v', 'e', 'r', 'P', 'o', 'r', 't']
def blockSizeFlag : Str := text ['-', 'b', 'l', 'o', 'c', 'k', 'S', 'i', 'z', 'e']
def pseudoFlag : Str := text ['-', 'p', 's', 'e', 'u', 'd', 'o']

/-- `tryParseSizeT_`, which exits on what is no number. -/
def tryParseSizeT_ (arg : Str) : Option SizeT := scanSizeT arg

/-- The chain of comparisons in `parse`, for an option and its value; an unknown option is
a usage error. -/
def set (a : Arguments) (arg value : Str) : Option Arguments :=
  if arg = appFlag then some { a with appName := some value }
  else if arg = numNodesFlag then do
    let n ← tryParseSizeT_ value
    pure { a with numNodes := n }
  else if arg = indexFlag then do
    let n ← tryParseSizeT_ value
    pure { a with index := n }
  else if arg = ipFlag then some { a with ip := some value }
  else if arg = portFlag then do
    let n ← tryParseSizeT_ value
    pure { a with port := n }
  else if arg = serverIndexFlag then do
    let n ← tryParseSizeT_ value
    pure { a with serverIndex := n }
  else if arg = serverIpFlag then some { a with serverIp := some value }
  else if arg = serverPortFlag then do
    let n ← tryParseSizeT_ value
    pure { a with serverPort := n }
  else if arg = blockSizeFlag then do
    let n ← tryParseSizeT_ value
    pure { a with blockSize := n }
  else none

/-- `parse`, of `argv` behind its first entry; `none` is an exit. -/
def parse (a : Arguments) : List Str → Option Arguments
  | [] => some a
  | arg :: rest =>
    if arg = pseudoFlag then parse { a with usePseudoNet := true } rest
    else match rest with
      | [] => none
      | value :: rest => do
        let a ← a.set arg value
        parse a rest

def lastValue (flag : Str) : List Str → Option Str
  | [] => none
  | arg :: rest =>
    if arg = pseudoFlag then lastValue flag rest
    else match rest with
      | [] => none
      | value :: rest => (lastValue flag rest).or (if arg = flag then some value else none)

/-- Whether `parse` meets a `-pseudo` where it looks for an option. -/
def usesPseudo : List Str → Bool
  | [] => false
  | arg :: rest =>
    if arg = pseudoFlag then true
    else match rest with
      | [] => false
      | _ :: rest => usesPseudo rest

/-- `field` is set by `flag` and by nothing else, to what `read` makes of the value. -/
structure SetBy {α : Type} (flag : Str) (field : Arguments → α) (read : Str → Option α) :
    Prop where
  pseudo : ∀ a : Arguments, field { a with usePseudoNet := true } = field a
  this : ∀ {a a' : Arguments} {value : Str}, a.set flag value = some a' →
    read value = some (field a')
  other : ∀ {a a' : Arguments} {arg value : Str}, arg ≠ flag → a.set arg value = some a' →
    field a' = field a

/-- An option leaves the fields of the other options alone. -/
structure Keeps (arg : Str) (a a' : Arguments) : Prop where
  usePseudoNet : a'.usePseudoNet = a.usePseudoNet
  appName : arg ≠ appFlag → a'.appName = a.appName
  numNodes : arg ≠ numNodesFlag → a'.numNodes = a.numNodes
  ip : arg ≠ ipFlag → a'.ip = a.ip
  serverIp : arg ≠ serverIpFlag → a'.serverIp = a.serverIp
  blockSize : arg ≠ blockSizeFlag → a'.blockSize = a.blockSize

theorem set_keeps {a a' : Arguments} {arg value : Str} (h : a.set arg value = some a') :
    Keeps arg a a' := by
  unfold set at h
  split_ifs at h
  all_goals first
    | cases h
      constructor <;> intros <;> first | rfl | contradiction
    | obtain ⟨n, -, he⟩ := Option.bind_eq_some_iff.mp h
      cases he
      constructor <;> intros <;> first | rfl | contradiction

theorem setBy_appName : SetBy appFlag appName (fun value => some (some value)) where
  pseudo _ := rfl
  this {a a' value} h := by
    cases show some { a with appName := some value } = some a' from h
    rfl
  other hne h := (set_keeps h).appName hne

theorem setBy_ip : SetBy ipFlag ip (fun value => some (some value)) where
  pseudo _ := rfl
  this {a a' value} h := by
    cases show some { a with ip := some value } = some a' from h
    rfl
  other hne h := (set_keeps h).ip hne

theorem setBy_serverIp : SetBy serverIpFlag serverIp (fun value => some (some value)) where
  pseudo _ := rfl
  this {a a' value} h := by
    cases show some { a with serverIp := some value } = some a' from h
    rfl
  other hne h := (set_keeps h).serverIp hne

theorem setBy_numNodes : SetBy numNodesFlag numNodes scanSizeT where
  pseudo _ := rfl
  this {a a' value} h := by
    obtain ⟨n, hn, he⟩ := Option.bind_eq_some_iff.mp
      (show (scanSizeT value).bind (fun n => some { a with numNodes := n }) = some a' from h)
    cases he
    exact hn
  other hne h := (set_keeps h).numNodes hne

theorem setBy_blockSize : SetBy blockSizeFlag blockSize scanSizeT where
  pseudo _ := rfl
  this {a a' value} h := by
    obtain ⟨n, hn, he⟩ := Option.bind_eq_some_iff.mp
      (show (scanSizeT value).bind (fun n => some { a with blockSize := n }) = some a' from h)
    cases he
    exact hn
  other hne h := (set_keeps h).blockSize hne

/-- **An argument is the last value given for it, or what it was.** -/
theorem parse_field {α : Type} {flag : Str} {field : Arguments → α} {read : Str → Option α}
    (hset : SetBy flag field read) {argv : List Str} {a a' : Arguments}
    (h : parse a argv = some a') :
    match lastValue flag argv with
    | none => field a' = field a
    | some value => read value = some (field a') := by
  fun_induction parse a argv with
  | case1 a =>
    cases h
    rfl
  | case2 a rest ih =>
    rw [lastValue.eq_def]
    simp only [if_pos]
    have hrest := ih h
    rw [hset.pseudo] at hrest
    exact hrest
  | case3 a arg hne => cases h
  | case4 a arg hne value rest ih =>
    obtain ⟨a₁, hs, hp⟩ := Option.bind_eq_some_iff.mp h
    have := ih a₁ hp
    rw [lastValue.eq_def]
    simp only [if_neg hne]
    split at this
    · rename_i hlast
      simp only [hlast, Option.none_or]
      by_cases harg : arg = flag
      · rw [if_pos harg]
        subst harg
        rw [this]
        exact hset.this hs
      · rw [if_neg harg]
        exact this.trans (hset.other harg hs)
    · rename_i v hlast
      simp only [hlast, Option.some_or]
      exact this

theorem parse_text {flag : Str} {field : Arguments → Option Str}
    (hset : SetBy flag field (fun value => some (some value))) {argv : List Str}
    {a a' : Arguments} (ha : field a = none) (h : parse a argv = some a') :
    field a' = lastValue flag argv := by
  have hf := parse_field hset h
  split at hf
  · rename_i hlast
    rw [hf, hlast, ha]
  · rename_i value hlast
    rw [hlast]
    exact (Option.some.inj hf).symm

theorem usesPseudo_flag (rest : List Str) : usesPseudo (pseudoFlag :: rest) = true := by
  rw [usesPseudo.eq_def]
  exact if_pos rfl

theorem usesPseudo_option {arg : Str} (h : arg ≠ pseudoFlag) (value : Str) (rest : List Str) :
    usesPseudo (arg :: value :: rest) = usesPseudo rest := by
  rw [usesPseudo.eq_def]
  exact if_neg h

theorem parse_usePseudoNet {argv : List Str} {a a' : Arguments} (h : parse a argv = some a') :
    a'.usePseudoNet = (a.usePseudoNet || usesPseudo argv) := by
  fun_induction parse a argv with
  | case1 a =>
    cases h
    exact (Bool.or_false _).symm
  | case2 a rest ih =>
    rw [ih h, usesPseudo_flag, Bool.true_or, Bool.or_true]
  | case3 a arg hne => cases h
  | case4 a arg hne value rest ih =>
    obtain ⟨a₁, hs, hp⟩ := Option.bind_eq_some_iff.mp h
    rw [ih a₁ hp, (set_keeps hs).usePseudoNet, usesPseudo_option hne]

def NoZero (flag : Str) (argv : List Str) : Prop :=
  ∀ value, lastValue flag argv = some value → ∃ d ∈ numeral value, d ≠ 48

instance (flag : Str) (argv : List Str) : Decidable (NoZero flag argv) :=
  decidable_of_iff ((lastValue flag argv).all fun value => (numeral value).any (· ≠ 48)) <| by
    simp only [NoZero, Option.all_eq_true, List.any_eq_true, decide_eq_true_eq]

theorem parse_ne_zero {flag : Str} {field : Arguments → SizeT}
    (hset : SetBy flag field scanSizeT) {argv : List Str} {a a' : Arguments} (ha : field a ≠ 0)
    (h : parse a argv = some a') :
    field a' ≠ 0 ↔ NoZero flag argv := by
  have hf := parse_field hset h
  unfold NoZero
  split at hf
  · rename_i hlast
    rw [hf, hlast]
    refine iff_of_true ha ?_
    intro value hv
    cases hv
  · rename_i value hlast
    rw [hlast, ne_eq, scanSizeT_eq_zero hf]
    constructor
    · intro hne v hv
      cases hv
      push Not at hne
      exact hne
    · intro hall hzero
      obtain ⟨d, hd, hne⟩ := hall value rfl
      exact hne (hzero d hd)

end Arguments

end Eau2
