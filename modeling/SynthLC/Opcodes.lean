import SynthLC.BitField

/-! The instructions: their files under `opcodes_gen_all`, and the groups of `group_map.txt` and
`batch_transponder_2.txt` with their constraints `group_<id>.sv`. -/
namespace SynthLC

open BitField

inductive Instn where
  | ADD | ADDI | ADDIW | ADDW | AND | ANDI | AUIPC | BEQ | BGE | BGEU | BLT | BLTU | BNE | CSRRC
  | CSRRCI | CSRRS | CSRRSI | CSRRW | CSRRWI | DIV | DIVU | DIVUW | DIVW | EBREAK | ECALL | FENCE
  | FENCEI | JAL | JALR | LB | LBU | LD | LH | LHU | LUI | LW | LWU | MUL | MULH | MULHSU | MULHU
  | MULW | NOP | OR | ORI | REM | REMU | REMUW | REMW | SB | SD | SH | SLL | SLLI | SLLIW | SLLW
  | SLT | SLTI | SLTIU | SLTU | SRA | SRAI | SRAIW | SRAW | SRL | SRLI | SRLIW | SRLW | SUB
  | SUBW | SW | XOR | XORI
  deriving DecidableEq, Repr

/-- The name of an instruction's file. -/
def Instn.name : Instn → String
  | .ADD => "ADD" | .ADDI => "ADDI" | .ADDIW => "ADDIW" | .ADDW => "ADDW" | .AND => "AND"
  | .ANDI => "ANDI" | .AUIPC => "AUIPC" | .BEQ => "BEQ" | .BGE => "BGE" | .BGEU => "BGEU"
  | .BLT => "BLT" | .BLTU => "BLTU" | .BNE => "BNE" | .CSRRC => "CSRRC" | .CSRRCI => "CSRRCI"
  | .CSRRS => "CSRRS" | .CSRRSI => "CSRRSI" | .CSRRW => "CSRRW" | .CSRRWI => "CSRRWI"
  | .DIV => "DIV" | .DIVU => "DIVU" | .DIVUW => "DIVUW" | .DIVW => "DIVW" | .EBREAK => "EBREAK"
  | .ECALL => "ECALL" | .FENCE => "FENCE" | .FENCEI => "FENCEI" | .JAL => "JAL" | .JALR => "JALR"
  | .LB => "LB" | .LBU => "LBU" | .LD => "LD" | .LH => "LH" | .LHU => "LHU" | .LUI => "LUI"
  | .LW => "LW" | .LWU => "LWU" | .MUL => "MUL" | .MULH => "MULH" | .MULHSU => "MULHSU"
  | .MULHU => "MULHU" | .MULW => "MULW" | .NOP => "NOP" | .OR => "OR" | .ORI => "ORI"
  | .REM => "REM" | .REMU => "REMU" | .REMUW => "REMUW" | .REMW => "REMW" | .SB => "SB"
  | .SD => "SD" | .SH => "SH" | .SLL => "SLL" | .SLLI => "SLLI" | .SLLIW => "SLLIW"
  | .SLLW => "SLLW" | .SLT => "SLT" | .SLTI => "SLTI" | .SLTIU => "SLTIU" | .SLTU => "SLTU"
  | .SRA => "SRA" | .SRAI => "SRAI" | .SRAIW => "SRAIW" | .SRAW => "SRAW" | .SRL => "SRL"
  | .SRLI => "SRLI" | .SRLIW => "SRLIW" | .SRLW => "SRLW" | .SUB => "SUB" | .SUBW => "SUBW"
  | .SW => "SW" | .XOR => "XOR" | .XORI => "XORI"

inductive Operand where
  | rs1 | rs2
  deriving DecidableEq, Repr

/-- A pair of flags, one for each operand. -/
structure Bits where
  rs1 : Bool
  rs2 : Bool
  deriving DecidableEq

def Bits.get (b : Bits) : Operand → Bool
  | .rs1 => b.rs1
  | .rs2 => b.rs2

theorem Bits.ext_get {b b' : Bits} (h : ∀ op, b.get op = b'.get op) : b = b' := by
  have h1 : b.rs1 = b'.rs1 := h .rs1
  have h2 : b.rs2 = b'.rs2 := h .rs2
  cases b
  cases b'
  simp_all

/-- Operands of a group, the second column of the maps. -/
inductive OpField where
  | none | rs1 | rs1rs2
  deriving DecidableEq, Repr

/-- One line of a map. -/
structure Group where
  id : Nat
  field : OpField
  instns : List Instn

namespace Opcodes

/-- The shapes the assumptions of an instruction come in. -/
def rType (funct7 funct3 opcode : Nat) : List Test :=
  [.eq 31 25 funct7, .eq 14 12 funct3, .ne 11 7 0, .eq 6 0 opcode]

def shiftType (funct6 funct3 opcode : Nat) : List Test :=
  [.eq 31 26 funct6, .eq 14 12 funct3, .ne 11 7 0, .eq 6 0 opcode]

def iType (funct3 opcode : Nat) : List Test := [.eq 14 12 funct3, .ne 11 7 0, .eq 6 0 opcode]

def uType (opcode : Nat) : List Test := [.ne 11 7 0, .eq 6 0 opcode]

def noRd (funct3 opcode : Nat) : List Test := [.eq 14 12 funct3, .eq 6 0 opcode]

def system (funct12 funct3 opcode : Nat) : List Test :=
  [.eq 31 20 funct12, .eq 19 15 0b00000, .eq 14 12 funct3, .eq 11 7 0b00000, .eq 6 0 opcode]

def fence : List Test :=
  [.eq 31 28 0b0000, .eq 19 15 0b00000, .eq 14 12 0b000, .eq 11 7 0b00000, .eq 6 0 0b0001111]

/-- Lines of an instruction's file. -/
inductive Line where
  | define
  | assume (t : Test)
  | blank
  deriving DecidableEq

def assumed (ts : List Test) : List Line := ts.map .assume

/-- The files in `opcodes_gen_all`. -/
def opcodeFiles : List Instn :=
  [ .ADD, .ADDI, .ADDIW, .ADDW, .AND, .ANDI, .AUIPC, .BEQ, .BGE, .BGEU, .BLT, .BLTU, .BNE, .CSRRC,
    .CSRRCI, .CSRRS, .CSRRSI, .CSRRW, .CSRRWI, .DIV, .DIVU, .DIVUW, .DIVW, .EBREAK, .ECALL, .FENCE,
    .FENCEI, .JAL, .JALR, .LB, .LBU, .LD, .LH, .LHU, .LUI, .LW, .LWU, .MUL, .MULH, .MULHSU, .MULHU,
    .MULW, .NOP, .OR, .ORI, .REM, .REMU, .REMUW, .REMW, .SB, .SD, .SH, .SLL, .SLLI, .SLLIW, .SLLW,
    .SLT, .SLTI, .SLTIU, .SLTU, .SRA, .SRAI, .SRAIW, .SRAW, .SRL, .SRLI, .SRLIW, .SRLW, .SUB,
    .SUBW, .SW, .XOR, .XORI ]

theorem mem_opcodeFiles (opcode : Instn) : opcode ∈ opcodeFiles := by
  cases opcode <;> decide

/-- `opcodes_gen_all/<instn>.sv`; the files of the system instructions define `SYSINSN` first. -/
def opcodesGenAll : Instn → List Line
  | .ADD => assumed (rType 0b0000000 0b000 0b0110011)
  | .ADDI => assumed (iType 0b000 0b0010011)
  | .ADDIW => assumed (iType 0b000 0b0011011)
  | .ADDW => assumed (rType 0b0000000 0b000 0b0111011)
  | .AND => assumed (rType 0b0000000 0b111 0b0110011)
  | .ANDI => assumed (iType 0b111 0b0010011)
  | .AUIPC => assumed (uType 0b0010111)
  | .BEQ => assumed (noRd 0b000 0b1100011)
  | .BGE => assumed (noRd 0b101 0b1100011)
  | .BGEU => assumed (noRd 0b111 0b1100011)
  | .BLT => assumed (noRd 0b100 0b1100011)
  | .BLTU => assumed (noRd 0b110 0b1100011)
  | .BNE => assumed (noRd 0b001 0b1100011)
  | .CSRRC => .define :: assumed (noRd 0b011 0b1110011)
  | .CSRRCI => .define :: assumed (noRd 0b111 0b1110011)
  | .CSRRS => .define :: assumed (noRd 0b010 0b1110011)
  | .CSRRSI => .define :: assumed (noRd 0b110 0b1110011)
  | .CSRRW => .define :: assumed (noRd 0b001 0b1110011)
  | .CSRRWI => .define :: assumed (noRd 0b101 0b1110011)
  | .DIV => assumed (rType 0b0000001 0b100 0b0110011)
  | .DIVU => assumed (rType 0b0000001 0b101 0b0110011)
  | .DIVUW => assumed (rType 0b0000001 0b101 0b0111011)
  | .DIVW => assumed (rType 0b0000001 0b100 0b0111011)
  | .EBREAK => .define :: assumed (system 0b000000000001 0b000 0b1110011)
  | .ECALL => .define :: assumed (system 0b000000000000 0b000 0b1110011)
  | .FENCE => .define :: assumed fence
  | .FENCEI => .define :: assumed (system 0b000000000000 0b001 0b0001111) ++ [.blank]
  | .JAL => assumed (uType 0b1101111)
  | .JALR => assumed (noRd 0b000 0b1100111)
  | .LB => assumed (iType 0b000 0b0000011)
  | .LBU => assumed (iType 0b100 0b0000011)
  | .LD => assumed (iType 0b011 0b0000011)
  | .LH => assumed (iType 0b001 0b0000011)
  | .LHU => assumed (iType 0b101 0b0000011)
  | .LUI => assumed (uType 0b0110111)
  | .LW => assumed (iType 0b010 0b0000011)
  | .LWU => assumed (iType 0b110 0b0000011)
  | .MUL => assumed (rType 0b0000001 0b000 0b0110011)
  | .MULH => assumed (rType 0b0000001 0b001 0b0110011)
  | .MULHSU => assumed (rType 0b0000001 0b010 0b0110011)
  | .MULHU => assumed (rType 0b0000001 0b011 0b0110011)
  | .MULW => assumed (rType 0b0000001 0b000 0b0111011)
  | .NOP => assumed [.eq 31 0 0x00000013]
  | .OR => assumed (rType 0b0000000 0b110 0b0110011)
  | .ORI => assumed (iType 0b110 0b0010011)
  | .REM => assumed (rType 0b0000001 0b110 0b0110011)
  | .REMU => assumed (rType 0b0000001 0b111 0b0110011)
  | .REMUW => assumed (rType 0b0000001 0b111 0b0111011)
  | .REMW => assumed (rType 0b0000001 0b110 0b0111011)
  | .SB => assumed (noRd 0b000 0b0100011)
  | .SD => assumed (noRd 0b011 0b0100011)
  | .SH => assumed (noRd 0b001 0b0100011)
  | .SLL => assumed (rType 0b0000000 0b001 0b0110011)
  | .SLLI => assumed (shiftType 0b000000 0b001 0b0010011)
  | .SLLIW => assumed (rType 0b0000000 0b001 0b0011011)
  | .SLLW => assumed (rType 0b0000000 0b001 0b0111011)
  | .SLT => assumed (rType 0b0000000 0b010 0b0110011)
  | .SLTI => assumed (iType 0b010 0b0010011)
  | .SLTIU => assumed (iType 0b011 0b0010011)
  | .SLTU => assumed (rType 0b0000000 0b011 0b0110011)
  | .SRA => assumed (rType 0b0100000 0b101 0b0110011)
  | .SRAI => assumed (shiftType 0b010000 0b101 0b0010011)
  | .SRAIW => assumed (rType 0b0100000 0b101 0b0011011)
  | .SRAW => assumed (rType 0b0100000 0b101 0b0111011)
  | .SRL => assumed (rType 0b0000000 0b101 0b0110011)
  | .SRLI => assumed (shiftType 0b000000 0b101 0b0010011)
  | .SRLIW => assumed (rType 0b0000000 0b101 0b0011011)
  | .SRLW => assumed (rType 0b0000000 0b101 0b0111011)
  | .SUB => assumed (rType 0b0100000 0b000 0b0110011)
  | .SUBW => assumed (rType 0b0100000 0b000 0b0111011)
  | .SW => assumed (noRd 0b010 0b0100011)
  | .XOR => assumed (rType 0b0000000 0b100 0b0110011)
  | .XORI => assumed (iType 0b100 0b0010011)

def Line.test? : Line → Option Test
  | .assume t => some t
  | _ => none

def tests (m : Instn) : List Test := (opcodesGenAll m).filterMap Line.test?

/-- The word satisfies all assumptions of the instruction's file. -/
def memberHolds (m : Instn) (w : BitVec 32) : Bool := allHold w (tests m)

/-- The disjunction in `group_<id>.sv`, for the groups that a map lists. -/
def groupSv : Nat → List (List Test)
  | 0 =>
    [system 0b000000000001 0b000 0b1110011,
      uType 0b0110111,
      [.eq 31 28 0b0000, .eq 27 24 0b0000, .eq 23 20 0b0000, .eq 19 15 0b00000,
        .eq 14 12 0b001, .eq 11 7 0b00000, .eq 6 0 0b0001111],
      system 0b000000000000 0b000 0b1110011,
      uType 0b1101111,
      iType 0b110 0b1110011,
      iType 0b101 0b1110011,
      iType 0b111 0b1110011,
      fence,
      uType 0b0010111]
  | 2 =>
    [iType 0b000 0b0011011,
      rType 0b0000000 0b001 0b0011011,
      rType 0b0000000 0b101 0b0011011,
      rType 0b0100000 0b101 0b0011011]
  | 3 =>
    [rType 0b0000000 0b000 0b0110011,
      rType 0b0100000 0b000 0b0110011,
      rType 0b0000000 0b001 0b0110011,
      rType 0b0000000 0b010 0b0110011,
      rType 0b0000000 0b011 0b0110011,
      rType 0b0000000 0b100 0b0110011,
      rType 0b0000000 0b101 0b0110011,
      rType 0b0100000 0b101 0b0110011,
      rType 0b0000000 0b110 0b0110011,
      rType 0b0000000 0b111 0b0110011]
  | 4 =>
    [iType 0b000 0b0000011,
      iType 0b001 0b0000011,
      iType 0b010 0b0000011,
      iType 0b100 0b0000011,
      iType 0b101 0b0000011,
      iType 0b110 0b0000011,
      iType 0b011 0b0000011]
  | 5 =>
    [rType 0b0000000 0b000 0b0111011,
      rType 0b0100000 0b000 0b0111011,
      rType 0b0000000 0b001 0b0111011,
      rType 0b0000000 0b101 0b0111011,
      rType 0b0100000 0b101 0b0111011]
  | 6 =>
    [iType 0b001 0b1110011,
      iType 0b010 0b1110011,
      iType 0b011 0b1110011]
  | 7 =>
    [noRd 0b000 0b0100011,
      noRd 0b001 0b0100011,
      noRd 0b010 0b0100011,
      noRd 0b011 0b0100011]
  | 8 =>
    [iType 0b000 0b0010011,
      iType 0b010 0b0010011,
      iType 0b011 0b0010011,
      iType 0b100 0b0010011,
      iType 0b110 0b0010011,
      iType 0b111 0b0010011,
      shiftType 0b000000 0b001 0b0010011,
      shiftType 0b000000 0b101 0b0010011,
      shiftType 0b010000 0b101 0b0010011]
  | 9 =>
    [noRd 0b000 0b1100011,
      noRd 0b001 0b1100011,
      noRd 0b100 0b1100011,
      noRd 0b101 0b1100011,
      noRd 0b110 0b1100011,
      noRd 0b111 0b1100011]
  | 10 =>
    [noRd 0b000 0b1100111]
  | 11 =>
    [rType 0b0000001 0b100 0b0111011,
      rType 0b0000001 0b101 0b0111011,
      rType 0b0000001 0b110 0b0111011,
      rType 0b0000001 0b110 0b0110011,
      rType 0b0000001 0b111 0b0110011,
      rType 0b0000001 0b101 0b0110011,
      rType 0b0000001 0b100 0b0110011,
      rType 0b0000001 0b111 0b0111011]
  | 12 =>
    [rType 0b0000001 0b000 0b0110011,
      rType 0b0000001 0b001 0b0110011,
      rType 0b0000001 0b010 0b0110011,
      rType 0b0000001 0b011 0b0110011,
      rType 0b0000001 0b000 0b0111011]
  | 13 =>
    [system 0b000000000001 0b000 0b1110011,
      system 0b000000000000 0b000 0b1110011]
  | 14 =>
    [[.eq 31 28 0b0000, .eq 27 24 0b0000, .eq 23 20 0b0000, .eq 19 15 0b00000,
        .eq 14 12 0b001, .eq 11 7 0b00000, .eq 6 0 0b0001111],
      fence]
  | 15 =>
    [uType 0b1101111]
  | 16 =>
    [uType 0b0110111,
      uType 0b0010111]
  | 17 =>
    [iType 0b110 0b1110011,
      iType 0b101 0b1110011,
      iType 0b111 0b1110011]
  | 18 =>
    [iType 0b000 0b0000011,
      iType 0b001 0b0000011,
      iType 0b010 0b0000011,
      iType 0b100 0b0000011,
      iType 0b101 0b0000011,
      iType 0b110 0b0000011,
      iType 0b011 0b0000011]
  | _ => []

def groupHolds (id : Nat) (w : BitVec 32) : Bool := someHolds w (groupSv id)

/-- `group_map.txt`, the groups of transmitters. -/
def groupMap : List Group :=
  [ ⟨0, .none, [.EBREAK, .LUI, .FENCEI, .ECALL, .JAL, .CSRRSI, .CSRRWI, .CSRRCI, .FENCE, .AUIPC]⟩,
    ⟨2, .rs1, [.ADDIW, .SLLIW, .SRLIW, .SRAIW]⟩,
    ⟨3, .rs1rs2, [.ADD, .SUB, .SLL, .SLT, .SLTU, .XOR, .SRL, .SRA, .OR, .AND]⟩,
    ⟨4, .rs1, [.LB, .LH, .LW, .LBU, .LHU, .LWU, .LD]⟩,
    ⟨5, .rs1rs2, [.ADDW, .SUBW, .SLLW, .SRLW, .SRAW]⟩,
    ⟨6, .rs1, [.CSRRW, .CSRRS, .CSRRC]⟩,
    ⟨7, .rs1rs2, [.SB, .SH, .SW, .SD]⟩,
    ⟨8, .rs1, [.ADDI, .SLTI, .SLTIU, .XORI, .ORI, .ANDI, .SLLI, .SRLI, .SRAI]⟩,
    ⟨9, .rs1rs2, [.BEQ, .BNE, .BLT, .BGE, .BLTU, .BGEU]⟩,
    ⟨10, .rs1, [.JALR]⟩,
    ⟨11, .rs1rs2, [.DIV, .DIVU, .DIVUW, .DIVW, .REM, .REMU, .REMUW, .REMW]⟩,
    ⟨12, .rs1rs2, [.MUL, .MULH, .MULHSU, .MULHU, .MULW]⟩ ]

/-- `batch_transponder_2.txt` -/
def batchTransponder : List Group :=
  [ ⟨2, .rs1, [.ADDIW, .SLLIW, .SRLIW, .SRAIW]⟩,
    ⟨3, .rs1rs2, [.ADD, .SUB, .SLL, .SLT, .SLTU, .XOR, .SRL, .SRA, .OR, .AND]⟩,
    ⟨5, .rs1rs2, [.ADDW, .SUBW, .SLLW, .SRLW, .SRAW]⟩,
    ⟨6, .rs1, [.CSRRW, .CSRRS, .CSRRC]⟩,
    ⟨7, .rs1rs2, [.SB, .SD, .SH, .SW]⟩,
    ⟨8, .rs1, [.ADDI, .SLTI, .SLTIU, .XORI, .ORI, .ANDI, .SLLI, .SRLI, .SRAI]⟩,
    ⟨9, .rs1rs2, [.BEQ, .BNE, .BLT, .BGE, .BLTU, .BGEU]⟩,
    ⟨10, .rs1, [.JALR]⟩,
    ⟨11, .rs1rs2, [.DIV, .DIVU, .DIVUW, .DIVW, .REM, .REMU, .REMUW, .REMW]⟩,
    ⟨12, .rs1rs2, [.MUL, .MULH, .MULHSU, .MULHU, .MULW]⟩,
    ⟨13, .none, [.EBREAK, .ECALL]⟩,
    ⟨14, .none, [.FENCE, .FENCEI]⟩,
    ⟨15, .none, [.JAL]⟩,
    ⟨16, .none, [.LUI, .AUIPC]⟩,
    ⟨17, .none, [.CSRRCI, .CSRRSI, .CSRRWI]⟩,
    ⟨18, .rs1, [.LB, .LBU, .LD, .LH, .LHU, .LW, .LWU]⟩ ]

end Opcodes

end SynthLC
