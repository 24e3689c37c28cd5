import Mathlib.Data.List.Sort
import InstaX.ElfLoad.Elfio

/-!
# The symbols of a file

`readSymbols` (`src/backend/x86/X86Lifter.cpp`) lists the functions and objects that a file names,
in increasing order of their addresses.

It is meant to read `.symtab`, and `.dynsym` as a fallback, but it reads both: `collect_perm` says
what it collects.  So what both tables name is listed twice, and `listsTable_iff` says when the list
is that of the one table: without `.symtab`, or if `.dynsym` has nothing to list.
-/

namespace InstaX

open ELFIO

/-- A symbol of interest. -/
structure SymbolInfo where
  name : String
  address : U64
  size : U64
  type : Byte
  binding : Byte
  deriving DecidableEq, Repr

/-- A sort by address, as `std::sort` promises it: the symbols of one address come in any order. -/
structure AddressSort where
  sort : List SymbolInfo → List SymbolInfo
  perm : ∀ infos, (sort infos).Perm infos
  sorted : ∀ infos, (sort infos).Pairwise fun a b => a.address ≤ b.address

namespace SymbolInfo

/-- What is kept of an entry. -/
def ofSymbol (sym : Symbol) : SymbolInfo :=
  { name := sym.name, address := sym.value, size := sym.size, type := sym.type,
    binding := sym.bind }

/-- One entry: undefined and nameless ones are skipped, and those that are neither function nor
object. -/
def readEntry (result : List SymbolInfo) (sym : Symbol) : List SymbolInfo :=
  if sym.shndx = SHN_UNDEF ∨ sym.name = "" then result
  else if sym.type ≠ STT_FUNC ∧ sym.type ≠ STT_OBJECT then result
  else result ++ [ofSymbol sym]

/-- One section, if it is a symbol table. -/
def readSection (result : List SymbolInfo) (sec : Section) : List SymbolInfo :=
  if sec.type ≠ SHT_SYMTAB ∧ sec.type ≠ SHT_DYNSYM then result
  else sec.symbols.foldl readEntry result

/-- The loop over the sections. -/
def collect (reader : Elfio) : List SymbolInfo := reader.sections.foldl readSection []

/-- Collect the symbols of all tables and sort them. -/
def readSymbols (stdSort : AddressSort) (reader : Elfio) : List SymbolInfo :=
  stdSort.sort (collect reader)

/-! ## The one table -/

/-- An entry that is defined, named and of one of the two types. -/
def listed (sym : Symbol) : Bool :=
  sym.shndx != SHN_UNDEF && sym.name != "" && (sym.type == STT_FUNC || sym.type == STT_OBJECT)

/-- The entries of the tables of one type. -/
def entriesOf (type : BitVec 32) (sections : List Section) : List Symbol :=
  (sections.filter fun sec => sec.type == type).flatMap Section.symbols

/-- The entries of `.symtab`, and those of `.dynsym` only if there is none. -/
def symbolTable (reader : Elfio) : List Symbol :=
  if reader.sections.any fun sec => sec.type == SHT_SYMTAB then
    entriesOf SHT_SYMTAB reader.sections
  else entriesOf SHT_DYNSYM reader.sections

/-- The name and the address of an entry. -/
def symbolPair (sym : Symbol) : String × U64 := (sym.name, sym.value)

/-- The name and the address of what is listed. -/
def infoPair (info : SymbolInfo) : String × U64 := (info.name, info.address)

/-- The list is sorted, has every entry of the table that is to be listed, and has no name and
address more often than the table has it in such entries. -/
structure ListsTable (reader : Elfio) (infos : List SymbolInfo) : Prop where
  sorted : infos.Pairwise fun a b => a.address ≤ b.address
  complete : ∀ sym ∈ symbolTable reader, listed sym → ofSymbol sym ∈ infos
  bounded : ∀ pair, (infos.map infoPair).count pair ≤
    (((symbolTable reader).filter listed).map symbolPair).count pair

/-! ## What is collected -/

/-- What is listed of some entries. -/
def listedInfos (symbols : List Symbol) : List SymbolInfo := (symbols.filter listed).map ofSymbol

/-- The listed symbols of two tables are those of each. -/
@[simp] lemma listedInfos_append (symbols symbols' : List Symbol) :
    listedInfos (symbols ++ symbols') = listedInfos symbols ++ listedInfos symbols' := by
  simp [listedInfos]

/-- A listed symbol of a table is among its listed symbols. -/
lemma mem_listedInfos {symbols : List Symbol} {sym : Symbol} (hmem : sym ∈ symbols)
    (hlisted : listed sym) : ofSymbol sym ∈ listedInfos symbols :=
  List.mem_map_of_mem (List.mem_filter.mpr ⟨hmem, hlisted⟩)

/-- The first section is of the type. -/
lemma entriesOf_cons_of_eq {sec : Section} {type : BitVec 32} (h : sec.type = type)
    (sections : List Section) :
    entriesOf type (sec :: sections) = sec.symbols ++ entriesOf type sections := by
  simp [entriesOf, h]

/-- The first section is of another type. -/
lemma entriesOf_cons_of_ne {sec : Section} {type : BitVec 32} (h : sec.type ≠ type)
    (sections : List Section) : entriesOf type (sec :: sections) = entriesOf type sections := by
  simp [entriesOf, h]

/-- Reading an entry appends it if it is listed. -/
lemma readEntry_eq (result : List SymbolInfo) (sym : Symbol) :
    readEntry result sym = result ++ listedInfos [sym] := by
  rw [readEntry]
  split_ifs with hskip htype
  · rcases hskip with h | h <;> simp [listedInfos, listed, h]
  · simp [listedInfos, listed, htype]
  · have hlisted : listed sym := by
      rw [not_and_or, not_not, not_not] at htype
      simp [listed, htype, not_or.mp hskip]
    simp [listedInfos, hlisted]

/-- The loop over a table adds what is to be listed. -/
lemma foldl_readEntry (symbols : List Symbol) (result : List SymbolInfo) :
    symbols.foldl readEntry result = result ++ listedInfos symbols := by
  induction symbols generalizing result with
  | nil => simp [listedInfos]
  | cons sym symbols ih =>
    rw [List.foldl_cons, ih, readEntry_eq, List.append_assoc, ← listedInfos_append]
    rfl

/-- The loop over the sections adds what is to be listed of both kinds of tables. -/
lemma foldl_readSection_perm (sections : List Section) (result : List SymbolInfo) :
    (sections.foldl readSection result).Perm
      (result ++ (listedInfos (entriesOf SHT_SYMTAB sections) ++
        listedInfos (entriesOf SHT_DYNSYM sections))) := by
  induction sections generalizing result with
  | nil => simp [entriesOf, listedInfos]
  | cons sec sections ih =>
    rw [List.foldl_cons]
    refine (ih _).trans ?_
    rw [readSection]
    split_ifs with hskip
    · rw [entriesOf_cons_of_ne hskip.1, entriesOf_cons_of_ne hskip.2]
    · rw [foldl_readEntry, List.append_assoc]
      refine List.Perm.append_left _ ?_
      by_cases hsymtab : sec.type = SHT_SYMTAB
      · have hdynsym : sec.type ≠ SHT_DYNSYM := by
          rw [hsymtab]
          decide
        rw [entriesOf_cons_of_eq hsymtab, entriesOf_cons_of_ne hdynsym, listedInfos_append,
          List.append_assoc]
      · have hdynsym : sec.type = SHT_DYNSYM := by
          by_contra h
          exact hskip ⟨hsymtab, h⟩
        rw [entriesOf_cons_of_ne hsymtab, entriesOf_cons_of_eq hdynsym, listedInfos_append]
        exact List.perm_append_comm_assoc _ _ _

/-- The symbols of both tables are collected. -/
lemma collect_perm (reader : Elfio) :
    (collect reader).Perm (listedInfos (entriesOf SHT_SYMTAB reader.sections) ++
      listedInfos (entriesOf SHT_DYNSYM reader.sections)) := by
  exact foldl_readSection_perm reader.sections []

/-- The result is a rearrangement of the listed symbols of both tables. -/
lemma readSymbols_perm (stdSort : AddressSort) (reader : Elfio) :
    (readSymbols stdSort reader).Perm (listedInfos (entriesOf SHT_SYMTAB reader.sections) ++
      listedInfos (entriesOf SHT_DYNSYM reader.sections)) :=
  (stdSort.perm _).trans (collect_perm reader)

/-! ## Counting names and addresses -/

/-- A listed symbol keeps its name and its value. -/
lemma map_infoPair_listedInfos (symbols : List Symbol) :
    (listedInfos symbols).map infoPair = (symbols.filter listed).map symbolPair := by
  rw [listedInfos, List.map_map]
  rfl

/-- A name and value is listed as often as both tables list it. -/
lemma count_readSymbols (stdSort : AddressSort) (reader : Elfio) (pair : String × U64) :
    ((readSymbols stdSort reader).map infoPair).count pair =
      (((entriesOf SHT_SYMTAB reader.sections).filter listed).map symbolPair).count pair +
        (((entriesOf SHT_DYNSYM reader.sections).filter listed).map symbolPair).count pair := by
  rw [((readSymbols_perm stdSort reader).map infoPair).count_eq, List.map_append,
    List.count_append, map_infoPair_listedInfos, map_infoPair_listedInfos]

/-- Without a section of the type there are no entries of it. -/
lemma entriesOf_eq_nil {type : BitVec 32} {sections : List Section}
    (h : ∀ sec ∈ sections, sec.type ≠ type) : entriesOf type sections = [] := by
  rw [entriesOf, List.filter_eq_nil_iff.mpr (by simpa using h), List.flatMap_nil]

/-- Without a `.symtab` the symbol table is `.dynsym`. -/
lemma symbolTable_of_forall_ne {reader : Elfio}
    (h : ∀ sec ∈ reader.sections, sec.type ≠ SHT_SYMTAB) :
    symbolTable reader = entriesOf SHT_DYNSYM reader.sections := by
  rw [symbolTable, if_neg]
  simpa using h

/-- With a `.symtab` it is that. -/
lemma symbolTable_of_not_forall_ne {reader : Elfio}
    (h : ¬ ∀ sec ∈ reader.sections, sec.type ≠ SHT_SYMTAB) :
    symbolTable reader = entriesOf SHT_SYMTAB reader.sections := by
  rw [symbolTable, if_pos]
  simpa using h

/-- All of the table is listed, and it is sorted. -/
lemma listsTable_iff_bounded (stdSort : AddressSort) (reader : Elfio) :
    ListsTable reader (readSymbols stdSort reader) ↔
      ∀ pair, ((readSymbols stdSort reader).map infoPair).count pair ≤
        (((symbolTable reader).filter listed).map symbolPair).count pair := by
  refine ⟨ListsTable.bounded, fun hbounded =>
    ⟨stdSort.sorted _, fun sym hsym hlisted => ?_, hbounded⟩⟩
  rw [(readSymbols_perm stdSort reader).mem_iff, List.mem_append]
  rw [symbolTable] at hsym
  split_ifs at hsym
  · exact .inl (mem_listedInfos hsym hlisted)
  · exact .inr (mem_listedInfos hsym hlisted)

/-- The list is that of the one table exactly if there is no `.symtab`, or if `.dynsym` has nothing
to list. -/
theorem listsTable_iff (stdSort : AddressSort) (reader : Elfio) :
    ListsTable reader (readSymbols stdSort reader) ↔
      (∀ sec ∈ reader.sections, sec.type ≠ SHT_SYMTAB) ∨
        ∀ sym ∈ entriesOf SHT_DYNSYM reader.sections, ¬ listed sym := by
  rw [listsTable_iff_bounded]
  simp only [count_readSymbols]
  by_cases hnone : ∀ sec ∈ reader.sections, sec.type ≠ SHT_SYMTAB
  · refine iff_of_true (fun pair => ?_) (.inl hnone)
    rw [symbolTable_of_forall_ne hnone, entriesOf_eq_nil hnone, List.filter_nil, List.map_nil,
      List.count_nil, Nat.zero_add]
  · rw [symbolTable_of_not_forall_ne hnone, or_iff_right hnone, ← List.filter_eq_nil_iff,
      ← List.map_eq_nil_iff (f := symbolPair), List.eq_nil_iff_forall_not_mem]
    refine forall_congr' fun pair => ?_
    rw [← List.count_eq_zero]
    omega

/-! ## A file with both tables -/

/-- A sort by address. -/
def insertionSort : AddressSort where
  sort := List.insertionSort fun a b => a.address ≤ b.address
  perm := List.perm_insertionSort _
  sorted := by
    have htotal : Std.Total fun a b : SymbolInfo => a.address ≤ b.address :=
      ⟨fun a b => BitVec.le_total a.address b.address⟩
    have htrans : IsTrans SymbolInfo fun a b => a.address ≤ b.address :=
      ⟨fun _ _ _ => BitVec.le_trans⟩
    exact List.pairwise_insertionSort _

/-- A function of the file. -/
def mainSymbol : Symbol :=
  { name := "main", value := 0x401000, size := 6, bind := 1, type := STT_FUNC, shndx := 1 }

/-- The first entry of every table. -/
def nullSymbol : Symbol :=
  { name := "", value := 0, size := 0, bind := 0, type := 0, shndx := SHN_UNDEF }

/-- A file whose two tables name the function. -/
def bothTables : Elfio :=
  { entry := 0x401000, elfClass := ELFCLASS64, encoding := ELFDATA2LSB, segments := [],
    sections := [⟨0, 0, []⟩, ⟨SHT_DYNSYM, 0x400298, [nullSymbol, mainSymbol]⟩,
      ⟨SHT_SYMTAB, 0, [nullSymbol, mainSymbol]⟩] }

/-- The function is listed twice. -/
theorem not_listsTable_bothTables :
    ¬ ListsTable bothTables (readSymbols insertionSort bothTables) := by
  intro h
  have hle := h.bounded (symbolPair mainSymbol)
  exact absurd hle (by decide)

end SymbolInfo

end InstaX
