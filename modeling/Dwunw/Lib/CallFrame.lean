import Dwunw.Lib.Bytes
import Dwunw.Lib.Leb128

/-!
Call-frame programs, as versions 4 and 5 of DWARF define them.

* `Instr`, `Instr.bytes`: the instructions with their operands, and the opcode table.  LEB128
  operands are kept as the bytes that stand in the program, since a number has many
  encodings.
* `Row`, `Machine`, `Instr.apply`: one row of the unwind table, the row being made with the
  stack of remembered rows, and what an instruction does to it.
* `exec_rule`, `exec_cfaReg`, `exec_cfaOffset`: a row as what was given last, where no rows are
  remembered.
* `Addressing`, `Instr.location`: the arithmetic of the locations, in any type.
* `table`, `lastRow`: the whole table of a program, and the row that holds at an address: the
  last one whose location is not beyond it.
* `executed`, `exec`: the reading that stops early, at the first instruction that moves the
  location beyond the address.
* `lastRow_table`: the two readings agree where the locations do not decrease.
-/

namespace CallFrame

open Leb128

/-! ### Instructions -/

/-- A LEB128 operand, as its bytes; a number of any size. -/
structure Leb where
  bytes : List UInt8
  group : Group bytes

/-- The operand read unsigned. -/
def Leb.toNat (x : Leb) : ℕ := unsigned x.bytes

/-- The operand read signed. -/
def Leb.toInt (x : Leb) : ℤ := signed x.bytes

/-- A number in its minimal encoding. -/
def Leb.ofNat (n : ℕ) : Leb := ⟨encodeUnsigned n, group_encodeUnsigned n⟩

/-- An integer in its minimal encoding. -/
def Leb.ofInt (v : ℤ) : Leb := ⟨encodeSigned v, group_encodeSigned v⟩

/-- A block operand: a length and as many bytes. -/
structure Block where
  size : Leb
  data : List UInt8
  length_eq : data.length = size.toNat

def Block.bytes (b : Block) : List UInt8 := b.size.bytes ++ b.data

/-- The call-frame instructions, for addresses of `n` bytes. -/
inductive Instr (n : ℕ) where
  | nop
  | setLoc (address : Fin (256 ^ n))
  | advanceLoc (delta : Fin 64)
  | advanceLoc1 (delta : UInt8)
  | advanceLoc2 (delta : UInt16)
  | advanceLoc4 (delta : UInt32)
  | offset (reg : Fin 64) (factored : Leb)
  | restore (reg : Fin 64)
  | offsetExtended (reg : Leb) (factored : Leb)
  | restoreExtended (reg : Leb)
  | undefined (reg : Leb)
  | sameValue (reg : Leb)
  | register (reg source : Leb)
  | rememberState
  | restoreState
  | defCfa (reg : Leb) (offset : Leb)
  | defCfaRegister (reg : Leb)
  | defCfaOffset (offset : Leb)
  | defCfaExpression (block : Block)
  | expression (reg : Leb) (block : Block)
  | offsetExtendedSf (reg : Leb) (factored : Leb)
  | defCfaSf (reg : Leb) (factored : Leb)
  | defCfaOffsetSf (factored : Leb)
  | valOffset (reg : Leb) (factored : Leb)
  | valOffsetSf (reg : Leb) (factored : Leb)
  | valExpression (reg : Leb) (block : Block)

variable {n : ℕ}

/-- The encoding of an instruction. -/
def Instr.bytes : Instr n → List UInt8
  | .nop => [0x00]
  | .setLoc a => 0x01 :: leBytes n a
  | .advanceLoc d => [UInt8.ofNat (0x40 + d)]
  | .advanceLoc1 d => 0x02 :: leBytes 1 d.toNat
  | .advanceLoc2 d => 0x03 :: leBytes 2 d.toNat
  | .advanceLoc4 d => 0x04 :: leBytes 4 d.toNat
  | .offset r x => UInt8.ofNat (0x80 + r) :: x.bytes
  | .restore r => [UInt8.ofNat (0xc0 + r)]
  | .offsetExtended r x => 0x05 :: (r.bytes ++ x.bytes)
  | .restoreExtended r => 0x06 :: r.bytes
  | .undefined r => 0x07 :: r.bytes
  | .sameValue r => 0x08 :: r.bytes
  | .register r q => 0x09 :: (r.bytes ++ q.bytes)
  | .rememberState => [0x0a]
  | .restoreState => [0x0b]
  | .defCfa r x => 0x0c :: (r.bytes ++ x.bytes)
  | .defCfaRegister r => 0x0d :: r.bytes
  | .defCfaOffset x => 0x0e :: x.bytes
  | .defCfaExpression b => 0x0f :: b.bytes
  | .expression r b => 0x10 :: (r.bytes ++ b.bytes)
  | .offsetExtendedSf r x => 0x11 :: (r.bytes ++ x.bytes)
  | .defCfaSf r x => 0x12 :: (r.bytes ++ x.bytes)
  | .defCfaOffsetSf x => 0x13 :: x.bytes
  | .valOffset r x => 0x14 :: (r.bytes ++ x.bytes)
  | .valOffsetSf r x => 0x15 :: (r.bytes ++ x.bytes)
  | .valExpression r b => 0x16 :: (r.bytes ++ b.bytes)

/-- The encoding of a program. -/
def encode (is : List (Instr n)) : List UInt8 := is.flatMap (·.bytes)

@[simp] lemma encode_nil : encode ([] : List (Instr n)) = [] := rfl

@[simp] lemma encode_cons (i : Instr n) (is : List (Instr n)) :
    encode (i :: is) = i.bytes ++ encode is := rfl

@[simp] lemma encode_append (is js : List (Instr n)) :
    encode (is ++ js) = encode is ++ encode js := by
  simp [encode]

lemma Instr.bytes_length_pos (i : Instr n) : 0 < i.bytes.length := by
  cases i <;> exact Nat.succ_pos _

/-- Whether `k` bytes into a program an instruction starts, or the program ends. -/
def IsBoundary (is : List (Instr n)) (k : ℕ) : Prop :=
  ∃ pre post, is = pre ++ post ∧ (encode pre).length = k

lemma IsBoundary.zero (is : List (Instr n)) : IsBoundary is 0 := ⟨[], is, rfl, rfl⟩

/-- The boundaries behind the first instruction are those of the rest. -/
lemma isBoundary_cons_iff {i : Instr n} {is : List (Instr n)} {k : ℕ} :
    IsBoundary (i :: is) (i.bytes.length + k) ↔ IsBoundary is k := by
  have hpos := i.bytes_length_pos
  constructor
  · rintro ⟨pre, post, heq, hlen⟩
    cases pre with
    | nil =>
        rw [encode_nil, List.length_nil] at hlen
        omega
    | cons j pre =>
        rw [List.cons_append, List.cons.injEq] at heq
        rw [encode_cons, List.length_append, ← heq.1] at hlen
        exact ⟨pre, post, heq.2, by omega⟩
  · rintro ⟨pre, post, rfl, rfl⟩
    exact ⟨i :: pre, post, rfl, by rw [encode_cons, List.length_append]⟩

/-- No instruction starts inside another one. -/
lemma IsBoundary.not_inside (pre post : List (Instr n)) {i : Instr n} {k : ℕ}
    (hlo : (encode pre).length < k) (hhi : k < (encode pre).length + i.bytes.length) :
    ¬ IsBoundary (pre ++ i :: post) k := by
  rintro ⟨pre', post', heq, rfl⟩
  rcases List.append_eq_append_iff.mp heq with ⟨as, rfl, h⟩ | ⟨as, rfl, h⟩
  · cases as with
    | nil => simp at hlo
    | cons a as =>
        have ha : i = a := (List.cons.inj h).1
        rw [encode_append, encode_cons, List.length_append, List.length_append, ← ha] at hhi
        omega
  · rw [encode_append, List.length_append] at hlo
    omega

/-! ### Rows -/

/-- The rule of one register: how to find the value it had in the caller. -/
inductive Rule where
  | undefined
  | sameValue
  | offset (n : ℤ)
  | valOffset (n : ℤ)
  | register (r : ℕ)
  | expression (e : List UInt8)
  | valExpression (e : List UInt8)
  deriving DecidableEq

/-- A row of the unwind table: the rule for the CFA (a register, none at first, and an offset,
or else an expression) and the rule of every register. -/
structure Row where
  cfaReg : Option ℕ
  cfaOffset : ℤ
  cfaExpression : Option (List UInt8)
  rule : ℕ → Rule

/-- Give a register a rule. -/
def Row.setRule (row : Row) (r : ℕ) (rule : Rule) : Row :=
  { row with rule := Function.update row.rule r rule }

/-- The row being made, and the rows remembered. -/
structure Machine where
  row : Row
  stack : List Row

/-- Change the row. -/
def Machine.map (f : Row → Row) (s : Machine) : Machine := { s with row := f s.row }

/-- What an instruction does to the row, with the factor of the offsets and the row after the
initial instructions.  Instructions that move the location leave it alone. -/
def Instr.apply (dataAlign : ℤ) (initial : Row) (s : Machine) : Instr n → Machine
  | .nop | .setLoc _ | .advanceLoc _ | .advanceLoc1 _ | .advanceLoc2 _ | .advanceLoc4 _ => s
  | .offset r x => s.map (·.setRule r (.offset (x.toNat * dataAlign)))
  | .restore r => s.map (·.setRule r (initial.rule r))
  | .offsetExtended r x => s.map (·.setRule r.toNat (.offset (x.toNat * dataAlign)))
  | .restoreExtended r => s.map (·.setRule r.toNat (initial.rule r.toNat))
  | .undefined r => s.map (·.setRule r.toNat .undefined)
  | .sameValue r => s.map (·.setRule r.toNat .sameValue)
  | .register r q => s.map (·.setRule r.toNat (.register q.toNat))
  | .rememberState => { s with stack := s.row :: s.stack }
  | .restoreState =>
      match s.stack with
      | [] => s
      | row :: stack => ⟨row, stack⟩
  | .defCfa r x => s.map ({ · with
      cfaReg := some r.toNat, cfaOffset := x.toNat, cfaExpression := none })
  | .defCfaRegister r => s.map ({ · with cfaReg := some r.toNat })
  | .defCfaOffset x => s.map ({ · with cfaOffset := x.toNat })
  | .defCfaExpression b => s.map ({ · with cfaExpression := some b.data })
  | .expression r b => s.map (·.setRule r.toNat (.expression b.data))
  | .offsetExtendedSf r x => s.map (·.setRule r.toNat (.offset (x.toInt * dataAlign)))
  | .defCfaSf r x => s.map ({ · with
      cfaReg := some r.toNat, cfaOffset := x.toInt * dataAlign, cfaExpression := none })
  | .defCfaOffsetSf x => s.map ({ · with cfaOffset := x.toInt * dataAlign })
  | .valOffset r x => s.map (·.setRule r.toNat (.valOffset (x.toNat * dataAlign)))
  | .valOffsetSf r x => s.map (·.setRule r.toNat (.valOffset (x.toInt * dataAlign)))
  | .valExpression r b => s.map (·.setRule r.toNat (.valExpression b.data))

/-- What a sequence of instructions does to the row. -/
def exec (dataAlign : ℤ) (initial : Row) (s : Machine) (is : List (Instr n)) : Machine :=
  is.foldl (fun s i => i.apply dataAlign initial s) s

@[simp] lemma exec_nil (dataAlign : ℤ) (initial : Row) (s : Machine) :
    exec dataAlign initial s ([] : List (Instr n)) = s := rfl

@[simp] lemma exec_cons (dataAlign : ℤ) (initial : Row) (s : Machine) (i : Instr n)
    (is : List (Instr n)) :
    exec dataAlign initial s (i :: is) =
      exec dataAlign initial (i.apply dataAlign initial s) is := rfl

lemma exec_append (dataAlign : ℤ) (initial : Row) (s : Machine) (is js : List (Instr n)) :
    exec dataAlign initial s (is ++ js) =
      exec dataAlign initial (exec dataAlign initial s is) js :=
  List.foldl_append

/-- The register whose rule an instruction gives. -/
def Instr.ruleReg : Instr n → Option ℕ
  | .offset r _ | .restore r => some r
  | .offsetExtended r _ | .restoreExtended r | .undefined r | .sameValue r | .register r _
  | .expression r _ | .offsetExtendedSf r _ | .valOffset r _ | .valOffsetSf r _
  | .valExpression r _ => some r.toNat
  | _ => none

/-- The rule that an instruction gives its register. -/
def Instr.given (dataAlign : ℤ) (initial : Row) : Instr n → Rule
  | .offset _ x | .offsetExtended _ x => .offset (x.toNat * dataAlign)
  | .restore r => initial.rule r
  | .restoreExtended r => initial.rule r.toNat
  | .sameValue _ => .sameValue
  | .register _ q => .register q.toNat
  | .expression _ b => .expression b.data
  | .offsetExtendedSf _ x => .offset (x.toInt * dataAlign)
  | .valOffset _ x => .valOffset (x.toNat * dataAlign)
  | .valOffsetSf _ x => .valOffset (x.toInt * dataAlign)
  | .valExpression _ b => .valExpression b.data
  | _ => .undefined

/-- The register that an instruction gives the CFA. -/
def Instr.cfaReg : Instr n → Option ℕ
  | .defCfa r _ | .defCfaRegister r | .defCfaSf r _ => some r.toNat
  | _ => none

/-- The offset that an instruction gives the CFA. -/
def Instr.cfaOffset (dataAlign : ℤ) : Instr n → Option ℤ
  | .defCfa _ x | .defCfaOffset x => some x.toNat
  | .defCfaSf _ x | .defCfaOffsetSf x => some (x.toInt * dataAlign)
  | _ => none

/-- The instruction leaves the remembered rows alone. -/
def Instr.KeepsStack : Instr n → Prop
  | .rememberState | .restoreState => False
  | _ => True

/-- An instruction gives its register its rule, and leaves the others theirs. -/
lemma Instr.apply_rule (dataAlign : ℤ) (initial : Row) (s : Machine) {i : Instr n}
    (hi : i.KeepsStack) (k : ℕ) :
    (i.apply dataAlign initial s).row.rule k =
      if i.ruleReg = some k then i.given dataAlign initial else s.row.rule k := by
  have hset (r : ℕ) (rule : Rule) : (s.row.setRule r rule).rule k =
      if some r = some k then rule else s.row.rule k := by
    rw [Row.setRule]
    dsimp only
    rw [Function.update_apply]
    exact if_congr (by rw [Option.some.injEq, eq_comm]) rfl rfl
  cases i with
  | rememberState | restoreState => exact hi.elim
  | offset | restore | offsetExtended | restoreExtended | undefined | sameValue | register
  | expression | offsetExtendedSf | valOffset | valOffsetSf | valExpression => exact hset _ _
  | _ => rfl

lemma Instr.apply_cfaReg (dataAlign : ℤ) (initial : Row) (s : Machine) {i : Instr n}
    (hi : i.KeepsStack) :
    (i.apply dataAlign initial s).row.cfaReg = i.cfaReg.or s.row.cfaReg := by
  cases i <;> first | exact hi.elim | rfl

lemma Instr.apply_cfaOffset (dataAlign : ℤ) (initial : Row) (s : Machine) {i : Instr n}
    (hi : i.KeepsStack) :
    (i.apply dataAlign initial s).row.cfaOffset =
      (i.cfaOffset dataAlign).getD s.row.cfaOffset := by
  cases i <;> first | exact hi.elim | rfl

/-- The last instruction of a sequence that gives register `k` a rule. -/
def lastRule (k : ℕ) (is : List (Instr n)) : Option (Instr n) :=
  (is.filter fun i => i.ruleReg = some k).getLast?

lemma lastRule_append (k : ℕ) (is js : List (Instr n)) :
    lastRule k (is ++ js) = (lastRule k js).or (lastRule k is) := by
  rw [lastRule, List.filter_append, List.getLast?_append, lastRule, lastRule]

/-- The rule of a register is the last one that was given to it. -/
theorem exec_rule (dataAlign : ℤ) (initial : Row) (s : Machine) {is : List (Instr n)}
    (his : ∀ i ∈ is, i.KeepsStack) (k : ℕ) :
    (exec dataAlign initial s is).row.rule k =
      ((lastRule k is).map (Instr.given dataAlign initial)).getD (s.row.rule k) := by
  induction is using List.reverseRecOn with
  | nil => rfl
  | append_singleton is i ih =>
      have hrest := ih fun j hj => his j (List.mem_append_left _ hj)
      rw [exec_append, exec_cons, exec_nil, Instr.apply_rule _ _ _ (his i (by simp)), hrest,
        lastRule_append]
      have hone : lastRule k [i] = if i.ruleReg = some k then some i else none := by
        rw [lastRule]
        split_ifs with h <;> simp [h]
      rw [hone]
      split_ifs <;> rfl

/-- The CFA register is the last one that was given. -/
theorem exec_cfaReg (dataAlign : ℤ) (initial : Row) (s : Machine) {is : List (Instr n)}
    (his : ∀ i ∈ is, i.KeepsStack) :
    (exec dataAlign initial s is).row.cfaReg =
      ((is.filterMap Instr.cfaReg).getLast?).or s.row.cfaReg := by
  induction is using List.reverseRecOn with
  | nil => rfl
  | append_singleton is i ih =>
      have hrest := ih fun j hj => his j (List.mem_append_left _ hj)
      rw [exec_append, exec_cons, exec_nil, Instr.apply_cfaReg _ _ _ (his i (by simp)), hrest,
        List.filterMap_append, List.getLast?_append, Option.or_assoc]
      cases h : i.cfaReg <;> simp [h]

/-- The CFA offset is the last one that was given. -/
theorem exec_cfaOffset (dataAlign : ℤ) (initial : Row) (s : Machine) {is : List (Instr n)}
    (his : ∀ i ∈ is, i.KeepsStack) :
    (exec dataAlign initial s is).row.cfaOffset =
      ((is.filterMap (Instr.cfaOffset dataAlign)).getLast?).getD s.row.cfaOffset := by
  induction is using List.reverseRecOn with
  | nil => rfl
  | append_singleton is i ih =>
      have hrest := ih fun j hj => his j (List.mem_append_left _ hj)
      rw [exec_append, exec_cons, exec_nil, Instr.apply_cfaOffset _ _ _ (his i (by simp)), hrest,
        List.filterMap_append, List.getLast?_append]
      cases h : i.cfaOffset dataAlign <;> simp [h]

/-! ### Locations -/

/-- The arithmetic of locations: the operand of `set_loc`, and advancing by a factored
delta. -/
structure Addressing (L : Type) where
  address : ℕ → L
  advance : L → ℕ → L

variable {L : Type}

/-- The new location, if the instruction moves it. -/
def Instr.location (A : Addressing L) (loc : L) : Instr n → Option L
  | .setLoc a => some (A.address a)
  | .advanceLoc d => some (A.advance loc d)
  | .advanceLoc1 d => some (A.advance loc d.toNat)
  | .advanceLoc2 d => some (A.advance loc d.toNat)
  | .advanceLoc4 d => some (A.advance loc d.toNat)
  | _ => none

/-- An instruction that moves the location leaves the row alone. -/
lemma Instr.apply_of_location {A : Addressing L} {loc loc' : L} {i : Instr n}
    (h : i.location A loc = some loc') (dataAlign : ℤ) (initial : Row) (s : Machine) :
    i.apply dataAlign initial s = s := by
  cases i <;> first | rfl | cases h

/-- The table of a program: a row is finished when the location moves, and the last one at the
end. -/
def table (A : Addressing L) (dataAlign : ℤ) (initial : Row) :
    L → Machine → List (Instr n) → List (L × Row)
  | loc, s, [] => [(loc, s.row)]
  | loc, s, i :: is =>
      match i.location A loc with
      | some loc' => (loc, s.row) :: table A dataAlign initial loc' s is
      | none => table A dataAlign initial loc (i.apply dataAlign initial s) is

/-- The first row of a table is at the location it starts from. -/
lemma table_head (A : Addressing L) (dataAlign : ℤ) (initial : Row) (loc : L) (s : Machine)
    (is : List (Instr n)) :
    ∃ row t, table A dataAlign initial loc s is = (loc, row) :: t := by
  induction is generalizing s with
  | nil => exact ⟨_, _, rfl⟩
  | cons i is ih =>
      rw [table]
      cases i.location A loc with
      | none => exact ih _
      | some loc' => exact ⟨_, _, rfl⟩

/-- The row that holds at an address: the last one whose location is not beyond it. -/
def lastRow [LE L] [DecidableLE L] (t : List (L × Row)) (pc : L) : Option Row :=
  (t.filter fun r => r.1 ≤ pc).getLast?.map (·.2)

section Early

variable [LT L] [DecidableLT L]

/-- The instructions in front of the first one that moves the location beyond `pc`. -/
def executed (A : Addressing L) (pc : L) : L → List (Instr n) → List (Instr n)
  | _, [] => []
  | loc, i :: is =>
      match i.location A loc with
      | some loc' => if pc < loc' then [] else i :: executed A pc loc' is
      | none => i :: executed A pc loc is

/-- Whether some instruction moves the location beyond `pc`. -/
def Passes (A : Addressing L) (pc : L) : L → List (Instr n) → Prop
  | _, [] => False
  | loc, i :: is =>
      match i.location A loc with
      | some loc' => pc < loc' ∨ Passes A pc loc' is
      | none => Passes A pc loc is

lemma executed_prefix (A : Addressing L) (pc loc : L) (is : List (Instr n)) :
    ∃ post, is = executed A pc loc is ++ post := by
  induction is generalizing loc with
  | nil => exact ⟨[], rfl⟩
  | cons i is ih =>
      rw [executed]
      cases i.location A loc with
      | none =>
          obtain ⟨post, hpost⟩ := ih loc
          exact ⟨post, by dsimp only; rw [List.cons_append, ← hpost]⟩
      | some loc' =>
          dsimp only
          split_ifs
          · exact ⟨i :: is, rfl⟩
          · obtain ⟨post, hpost⟩ := ih loc'
            exact ⟨post, by rw [List.cons_append, ← hpost]⟩

end Early

/-- Selecting the last row not beyond `pc` is stopping at the first instruction that moves
beyond it, where the locations of the table do not decrease. -/
theorem lastRow_table [LinearOrder L] {A : Addressing L} {dataAlign : ℤ} {initial : Row}
    {pc loc : L} {s : Machine} {is : List (Instr n)} (hpc : loc ≤ pc)
    (hmono : ((table A dataAlign initial loc s is).map (·.1)).Pairwise (· ≤ ·)) :
    lastRow (table A dataAlign initial loc s is) pc =
      some (exec dataAlign initial s (executed A pc loc is)).row := by
  induction is generalizing loc s with
  | nil => simp [table, lastRow, executed, hpc]
  | cons i is ih =>
      rw [table] at hmono ⊢
      rw [executed]
      cases hloc : i.location A loc with
      | none =>
          rw [hloc] at hmono
          exact ih hpc hmono
      | some loc' =>
          rw [hloc] at hmono
          dsimp only at hmono ⊢
          rw [List.map_cons, List.pairwise_cons] at hmono
          obtain ⟨row, t, ht⟩ := table_head A dataAlign initial loc' s is
          by_cases hpass : pc < loc'
          · -- every later row is at `loc'` or beyond
            have hlater : (table A dataAlign initial loc' s is).filter (fun r => r.1 ≤ pc) =
                [] := by
              rw [List.filter_eq_nil_iff]
              intro r hr
              have hle : loc' ≤ r.1 := by
                have hsorted := hmono.2
                rw [ht, List.map_cons, List.pairwise_cons] at hsorted
                rw [ht] at hr
                rcases List.mem_cons.mp hr with rfl | hr
                · exact le_rfl
                · exact hsorted.1 _ (List.mem_map_of_mem hr)
              simpa using lt_of_lt_of_le hpass hle
            rw [lastRow, List.filter_cons_of_pos (by simpa using hpc), hlater, if_pos hpass]
            rfl
          · rw [if_neg hpass, exec_cons, Instr.apply_of_location hloc,
              ← ih (not_lt.mp hpass) hmono.2]
            have hhead : (loc', row) ∈
                (table A dataAlign initial loc' s is).filter (fun r => r.1 ≤ pc) := by
              rw [List.mem_filter, ht]
              exact ⟨List.mem_cons_self, by simpa using not_lt.mp hpass⟩
            rw [lastRow, lastRow, List.filter_cons_of_pos (by simpa using hpc),
              List.getLast?_cons_of_ne_nil (List.ne_nil_of_mem hhead)]

end CallFrame
