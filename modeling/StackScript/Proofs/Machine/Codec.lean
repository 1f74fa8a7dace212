import StackScript.Machine.Codec
import StackScript.Proofs.Json.RoundTrip

/-!
# The interchange form is read back

## Design Notes

A text of a float is rounded twice when it is read, so float constants are left out.
-/

namespace StackScript

namespace Json

variable {α : Type}

/-- A value that is read as `a` and whose text can be read back at the given depth. -/
structure Holds (read : Json → Option α) (depth : Nat) (j : Json) (a : α) : Prop where
  reads : read j = some a
  fits : j.Fits depth

variable {read : Json → Option α} {depth : Nat}

/-- Every reader of an integer is this one, with its own bounds and its own type of result. -/
theorem holds_between {lo hi n : Int} {f : Int → α} {a : α} (hn : lo ≤ n ∧ n ≤ hi)
    (hlo : -(twoPow 63 : Int) ≤ lo) (hhi : hi < twoPow 64) (ha : f n = a) :
    Holds (fun j => (j.intBetween? lo hi).map f) depth (.int n) a where
  reads := by rw [intBetween?, if_pos hn, Option.map_some, ha]
  fits := ⟨by omega, by omega⟩

theorem holds_u32 (n : UInt32) : Holds u32? depth (u32Json n) n := by
  have hlt : n.toNat < twoPow 32 := n.toNat_lt
  exact holds_between ⟨by omega, by omega⟩ (by decide) (by decide) (by simp)

theorem holds_u8 (n : UInt8) : Holds u8? depth (.int n.toNat) n := by
  have hlt : n.toNat < 256 := n.toNat_lt
  exact holds_between ⟨by omega, by omega⟩ (by decide) (by decide) (by simp)

theorem holds_i32 (v : BitVec 32) : Holds i32? depth (.int v.toInt) v := by
  have hlow : -(twoPow 31 : Int) ≤ v.toInt := BitVec.le_toInt v
  have hhigh : v.toInt < (twoPow 31 : Int) := BitVec.toInt_lt
  exact holds_between ⟨hlow, by omega⟩ (by decide) (by decide) BitVec.ofInt_toInt

theorem holds_i64 (v : BitVec 64) : Holds i64? depth (.int v.toInt) v := by
  have hlow : -(twoPow 63 : Int) ≤ v.toInt := BitVec.le_toInt v
  have hhigh : v.toInt < (twoPow 63 : Int) := BitVec.toInt_lt
  exact holds_between ⟨hlow, by omega⟩ (by decide) (by decide) BitVec.ofInt_toInt

theorem holds_str (s : String) : Holds str? depth (.str s) s :=
  ⟨rfl, trivial⟩

theorem holds_list {f : α → Json} {as : List α} (h : ∀ a ∈ as, Holds read (depth + 1) (f a) a) :
    Holds (list? read) (depth + 2) (listJson f as) as where
  reads := by
    show (as.map f).mapM read = some as
    induction as with
    | nil => rfl
    | cons a as ih =>
      obtain ⟨ha, has⟩ := List.forall_mem_cons.1 h
      rw [List.map_cons, List.mapM_cons, ha.reads, ih has]
      rfl
  fits := by
    have hitems : ItemsFit (depth + 1) (as.map f) := by
      induction as with
      | nil => exact trivial
      | cons a as ih =>
        obtain ⟨ha, has⟩ := List.forall_mem_cons.1 h
        exact ⟨ha.fits, ih has⟩
    exact ⟨by omega, hitems⟩

/-- Null stands for nothing, so it must not be written for something. -/
theorem holds_option {f : α → Json} {o : Option α} (hnull : ∀ a, f a ≠ .null)
    (h : ∀ a ∈ o, Holds read depth (f a) a) : Holds (option? read) depth (Json.ofOption f o) o := by
  cases o with
  | none => exact ⟨rfl, trivial⟩
  | some a =>
    refine ⟨?_, (h a rfl).fits⟩
    show option? read (f a) = some (some a)
    rw [option?.eq_2 read (f a) (hnull a), (h a rfl).reads, Option.map_some]

end Json

open Json

/-! ### Types -/

theorem ValType.holds_toJson {depth : Nat} (t : ValType) : Holds ValType.ofJson? depth t.toJson t := by
  cases t <;> exact ⟨rfl, trivial⟩

theorem FuncType.holds_toJson {depth : Nat} (t : FuncType) : Holds FuncType.ofJson? (depth + 3) t.toJson t := by
  have hlist (ts : List ValType) : Holds (list? ValType.ofJson?) (depth + 2) (listJson ValType.toJson ts) ts :=
    holds_list fun t _ => t.holds_toJson
  constructor
  · simp [FuncType.ofJson?, FuncType.toJson, record?, get?, (hlist _).reads]
  · exact ⟨by omega, (hlist _).fits, (hlist _).fits, trivial⟩

/-! ### Instructions -/

theorem NumOp.mem_all (o : NumOp) : o ∈ NumOp.all := by
  rcases o with size | ⟨size, r⟩ | ⟨size, a⟩ | b | r | a | _ | c
  · cases size <;> decide
  · cases size <;> rcases r with _ | _ | signed | signed | signed | signed <;>
      first | decide | (cases signed <;> decide)
  · cases size <;> rcases a with _ | _ | _ | signed | signed <;>
      first | decide | (cases signed <;> decide)
  · rcases b with _ | _ | _ | signed <;> first | decide | (cases signed <;> decide)
  · cases r <;> decide
  · cases a <;> decide
  · decide
  · rcases c with _ | signed | ⟨size, signed⟩ | ⟨size, signed⟩ | _ | _ <;>
      first | decide | (cases signed <;> decide) | (cases size <;> cases signed <;> decide)

/-- No two operators have the same name. -/
theorem NumOp.ofTag?_tag (o : NumOp) : NumOp.ofTag? o.tag = some o := by
  have h : ∀ o ∈ NumOp.all, NumOp.ofTag? o.tag = some o := by decide +kernel
  exact h o o.mem_all

theorem holds_access {depth : Nat} (kind : MemKind) (offset : UInt32) :
    Holds accessOfJson? (depth + 2) (accessJson kind offset) (kind, offset) := by
  have hoffset : Holds u32? (depth + 1) (u32Json offset) offset := holds_u32 offset
  have hkind : MemKind.ofJson? (.str kind.tag) = some kind := by cases kind <;> rfl
  constructor
  · simp [accessOfJson?, accessJson, record?, get?, hoffset.reads, hkind]
  · exact ⟨by omega, trivial, hoffset.fits, trivial⟩

namespace Instr

variable {depth : Nat} {α : Type} {read : Json → Option α} {j : Json} {a : α}

/-- An alternative with contents: the name chooses the reader of the contents. -/
theorem holds_contents {name : String} {f : α → Instr} {i : Instr} (h : Holds read (depth + 1) j a)
    (hname : ofContents? name j = (read j).map f) (hi : f a = i) : Holds ofJson? (depth + 2) (.obj [(name, j)]) i where
  reads := by
    show ofContents? name j = some i
    rw [hname, h.reads, Option.map_some, hi]
  fits := ⟨by omega, h.fits, trivial⟩

theorem holds_blockType (ty : Option ValType) :
    Holds (option? ValType.ofJson?) (depth + 1) (Json.ofOption ValType.toJson ty) ty :=
  holds_option (fun t h => by cases h) fun t _ => t.holds_toJson

theorem holds_op {o : Op} (h : ∀ v, o ≠ .f64Const v) : Holds ofJson? (depth + 3) o.toJson (.op o) := by
  cases o with
  | unreachable | return_ | drop | memoryCopy => exact ⟨rfl, trivial⟩
  | br d | brIf d => exact holds_contents (holds_u32 d) rfl rfl
  | call i => exact holds_contents (holds_u32 i) rfl rfl
  | callIndirect t => exact holds_contents (holds_u32 t) rfl rfl
  | localGet i | localSet i | localTee i => exact holds_contents (holds_u32 i) rfl rfl
  | i32Const v => exact holds_contents (holds_i32 v) rfl rfl
  | i64Const v => exact holds_contents (holds_i64 v) rfl rfl
  | f64Const v => exact absurd rfl (h v)
  | load kind offset | store kind offset => exact holds_contents (holds_access kind offset) rfl rfl
  | num o =>
    have hname : Holds NumOp.ofJson? (depth + 2) (.str o.tag) o := ⟨o.ofTag?_tag, trivial⟩
    exact holds_contents hname rfl rfl

theorem holds_toJson {i : Instr} (h : ∀ v, i ≠ .op (.f64Const v)) : Holds ofJson? (depth + 3) i.toJson i := by
  cases i with
  | block ty | loop ty | if_ ty => exact holds_contents (holds_blockType ty) rfl rfl
  | else_ | end_ => exact ⟨rfl, trivial⟩
  | op o => exact holds_op fun v hv => h v (congrArg _ hv)

end Instr

/-! ### Modules -/

variable {depth : Nat}

theorem Import.holds_toJson (i : Import) : Holds Import.ofJson? (depth + 4) i.toJson i := by
  have hty : Holds FuncType.ofJson? (depth + 3) i.ty.toJson i.ty := i.ty.holds_toJson
  constructor
  · simp [Import.ofJson?, Import.toJson, record?, get?, hty.reads, str?]
  · exact ⟨by omega, trivial, trivial, hty.fits, trivial⟩

theorem Function.holds_toJson {f : Function} (h : ∀ v, .op (.f64Const v) ∉ f.body) :
    Holds Function.ofJson? (depth + 5) f.toJson f := by
  have hty : Holds FuncType.ofJson? (depth + 4) f.ty.toJson f.ty := f.ty.holds_toJson
  have hlocals : Holds (list? ValType.ofJson?) (depth + 4) (listJson ValType.toJson f.locals) f.locals :=
    holds_list fun t _ => t.holds_toJson
  have hbody : Holds (list? Instr.ofJson?) (depth + 4) (listJson Instr.toJson f.body) f.body :=
    holds_list fun i hi => Instr.holds_toJson fun v hv => h v (hv ▸ hi)
  have hexport : Holds (option? str?) (depth + 4) (Json.ofOption .str f.export_) f.export_ :=
    holds_option (fun s hs => by cases hs) fun s _ => holds_str s
  constructor
  · simp [Function.ofJson?, Function.toJson, record?, get?, hty.reads, hlocals.reads, hbody.reads, hexport.reads, str?]
  · exact ⟨by omega, trivial, hty.fits, hlocals.fits, hbody.fits, hexport.fits, trivial⟩

theorem DataSegment.holds_toJson (d : DataSegment) : Holds DataSegment.ofJson? (depth + 3) d.toJson d := by
  have hoffset : Holds u32? (depth + 2) (u32Json d.offset) d.offset := holds_u32 _
  have hbytes : Holds (list? u8?) (depth + 2) (listJson (fun b => .int b.toNat) d.bytes) d.bytes :=
    holds_list fun b _ => holds_u8 b
  constructor
  · simp [DataSegment.ofJson?, DataSegment.toJson, record?, get?, hoffset.reads, hbytes.reads]
  · exact ⟨by omega, hoffset.fits, hbytes.fits, trivial⟩

theorem Entry.holds_toJson (e : Entry) : Holds Entry.ofJson? (depth + 2) e.toJson e := by
  have hfunction : Holds u32? (depth + 1) (u32Json e.function) e.function := holds_u32 _
  have hresult := @Instr.holds_blockType depth e.result
  constructor
  · simp [Entry.ofJson?, Entry.toJson, record?, get?, hfunction.reads, hresult.reads, bool?]
  · exact ⟨by omega, hfunction.fits, trivial, hresult.fits, trivial⟩

namespace Module

theorem holds_toJson {m : Module} (h : ∀ f ∈ m.functions, ∀ v, .op (.f64Const v) ∉ f.body) :
    Holds Module.ofJson? (depth + 7) m.toJson m := by
  have htypes : Holds (list? FuncType.ofJson?) (depth + 6) (listJson FuncType.toJson m.types) m.types :=
    holds_list fun t _ => t.holds_toJson
  have himports : Holds (list? Import.ofJson?) (depth + 6) (listJson Import.toJson m.imports) m.imports :=
    holds_list fun i _ => i.holds_toJson
  have hfunctions : Holds (list? Function.ofJson?) (depth + 6) (listJson Function.toJson m.functions)
      m.functions :=
    holds_list fun f hf => Function.holds_toJson (h f hf)
  have htable : Holds (list? u32?) (depth + 6) (listJson u32Json m.table) m.table :=
    holds_list fun i _ => holds_u32 i
  have hdata : Holds (list? DataSegment.ofJson?) (depth + 6) (listJson DataSegment.toJson m.data)
      m.data :=
    holds_list fun d _ => d.holds_toJson
  have hpages : Holds u32? (depth + 5) (u32Json m.minPages) m.minPages := holds_u32 _
  have hbase : Holds u32? (depth + 6) (u32Json m.heapBase) m.heapBase := holds_u32 _
  have hstart : Holds (option? u32?) (depth + 6) (Json.ofOption u32Json m.start) m.start :=
    holds_option (fun n hn => by cases hn) fun n _ => holds_u32 n
  have hmain : Holds (option? Entry.ofJson?) (depth + 6) (Json.ofOption Entry.toJson m.main) m.main :=
    holds_option (fun e he => by cases he) fun e _ => e.holds_toJson
  have hmemory : memoryOfJson? (.obj [("min_pages", u32Json m.minPages)]) = some m.minPages := by
    simp [memoryOfJson?, record?, get?, hpages.reads]
  constructor
  · simp [Module.ofJson?, Module.toJson, record?, get?, htypes.reads, himports.reads, hfunctions.reads,
      htable.reads, hdata.reads, hmemory, hbase.reads, hstart.reads, hmain.reads]
  · exact ⟨by omega, htypes.fits, himports.fits, hfunctions.fits, htable.fits, hdata.fits,
      ⟨by omega, hpages.fits, trivial⟩, hbase.fits, hstart.fits, hmain.fits, trivial⟩

/-- **A module is read back from its interchange text**, unless it has a float constant. -/
theorem ofJsonText?_jsonText (m : Module) (h : ∀ f ∈ m.functions, ∀ v, .op (.f64Const v) ∉ f.body) :
    ofJsonText? m.jsonText = some m := by
  have hholds := @holds_toJson 121 m h
  have htext : Json.ofText? m.jsonText = some m.toJson := ofText?_write hholds.fits
  rw [ofJsonText?, htext]
  exact hholds.reads

/-- A module with names that need escapes, the least and largest numbers, and an absent start. -/
def edgeModule : Module where
  types := [⟨[.i32, .i64, .f64], []⟩]
  imports := [⟨"env", "\"\\\n\x07é𝄞", ⟨[], [.f64]⟩⟩]
  functions := [{
    name := ""
    ty := ⟨[], [.i32]⟩
    locals := [.i64]
    body := [.block none, .if_ (some .f64), .else_, .end_, .end_, .op (.i32Const (BitVec.intMin 32)),
      .op (.i64Const (BitVec.intMin 64)), .op (.i64Const (BitVec.intMax 64)),
      .op (.load .u8 4294967295), .op (.num (.convert (.truncate .w64 false))), .op .return_]
    export_ := some "a\tb" }]
  table := [0, 4294967295]
  data := [⟨1024, [0, 255]⟩, ⟨0, []⟩]
  minPages := 1
  heapBase := 4294967295
  start := none
  main := some ⟨1, true, some .i32⟩

theorem ofJsonText?_jsonText_edge : ofJsonText? edgeModule.jsonText = some edgeModule := by
  refine ofJsonText?_jsonText edgeModule fun f hf v hv => ?_
  obtain rfl := List.mem_singleton.1 hf
  simp at hv

end Module

end StackScript
