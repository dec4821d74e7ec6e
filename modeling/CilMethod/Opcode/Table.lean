import CilMethod.Opcode.Basic

/-!
# The instruction set

The opcodes of the common intermediate language, in the order of their values. Mnemonics are
looked up here, exactly as written; a short branch finds its long form by dropping the `.s` from
its mnemonic.
-/

namespace CilMethod

namespace Opcode

def table : List Opcode :=
  [⟨"nop", 0x00, .inlineNone⟩, ⟨"break", 0x01, .inlineNone⟩, ⟨"ldarg.0", 0x02, .inlineNone⟩,
    ⟨"ldarg.1", 0x03, .inlineNone⟩, ⟨"ldarg.2", 0x04, .inlineNone⟩,
    ⟨"ldarg.3", 0x05, .inlineNone⟩, ⟨"ldloc.0", 0x06, .inlineNone⟩,
    ⟨"ldloc.1", 0x07, .inlineNone⟩, ⟨"ldloc.2", 0x08, .inlineNone⟩,
    ⟨"ldloc.3", 0x09, .inlineNone⟩, ⟨"stloc.0", 0x0a, .inlineNone⟩,
    ⟨"stloc.1", 0x0b, .inlineNone⟩, ⟨"stloc.2", 0x0c, .inlineNone⟩,
    ⟨"stloc.3", 0x0d, .inlineNone⟩, ⟨"ldarg.s", 0x0e, .shortInlineArg⟩,
    ⟨"ldarga.s", 0x0f, .shortInlineArg⟩, ⟨"starg.s", 0x10, .shortInlineArg⟩,
    ⟨"ldloc.s", 0x11, .shortInlineVar⟩, ⟨"ldloca.s", 0x12, .shortInlineVar⟩,
    ⟨"stloc.s", 0x13, .shortInlineVar⟩, ⟨"ldnull", 0x14, .inlineNone⟩,
    ⟨"ldc.i4.m1", 0x15, .inlineNone⟩, ⟨"ldc.i4.0", 0x16, .inlineNone⟩,
    ⟨"ldc.i4.1", 0x17, .inlineNone⟩, ⟨"ldc.i4.2", 0x18, .inlineNone⟩,
    ⟨"ldc.i4.3", 0x19, .inlineNone⟩, ⟨"ldc.i4.4", 0x1a, .inlineNone⟩,
    ⟨"ldc.i4.5", 0x1b, .inlineNone⟩, ⟨"ldc.i4.6", 0x1c, .inlineNone⟩,
    ⟨"ldc.i4.7", 0x1d, .inlineNone⟩, ⟨"ldc.i4.8", 0x1e, .inlineNone⟩,
    ⟨"ldc.i4.s", 0x1f, .shortInlineI⟩, ⟨"ldc.i4", 0x20, .inlineI⟩, ⟨"ldc.i8", 0x21, .inlineI8⟩,
    ⟨"ldc.r4", 0x22, .shortInlineR⟩, ⟨"ldc.r8", 0x23, .inlineR⟩, ⟨"dup", 0x25, .inlineNone⟩,
    ⟨"pop", 0x26, .inlineNone⟩, ⟨"jmp", 0x27, .inlineMethod⟩, ⟨"call", 0x28, .inlineMethod⟩,
    ⟨"calli", 0x29, .inlineSig⟩, ⟨"ret", 0x2a, .inlineNone⟩, ⟨"br.s", 0x2b, .shortInlineBrTarget⟩,
    ⟨"brfalse.s", 0x2c, .shortInlineBrTarget⟩, ⟨"brtrue.s", 0x2d, .shortInlineBrTarget⟩,
    ⟨"beq.s", 0x2e, .shortInlineBrTarget⟩, ⟨"bge.s", 0x2f, .shortInlineBrTarget⟩,
    ⟨"bgt.s", 0x30, .shortInlineBrTarget⟩, ⟨"ble.s", 0x31, .shortInlineBrTarget⟩,
    ⟨"blt.s", 0x32, .shortInlineBrTarget⟩, ⟨"bne.un.s", 0x33, .shortInlineBrTarget⟩,
    ⟨"bge.un.s", 0x34, .shortInlineBrTarget⟩, ⟨"bgt.un.s", 0x35, .shortInlineBrTarget⟩,
    ⟨"ble.un.s", 0x36, .shortInlineBrTarget⟩, ⟨"blt.un.s", 0x37, .shortInlineBrTarget⟩,
    ⟨"br", 0x38, .inlineBrTarget⟩, ⟨"brfalse", 0x39, .inlineBrTarget⟩,
    ⟨"brtrue", 0x3a, .inlineBrTarget⟩, ⟨"beq", 0x3b, .inlineBrTarget⟩,
    ⟨"bge", 0x3c, .inlineBrTarget⟩, ⟨"bgt", 0x3d, .inlineBrTarget⟩,
    ⟨"ble", 0x3e, .inlineBrTarget⟩, ⟨"blt", 0x3f, .inlineBrTarget⟩,
    ⟨"bne.un", 0x40, .inlineBrTarget⟩, ⟨"bge.un", 0x41, .inlineBrTarget⟩,
    ⟨"bgt.un", 0x42, .inlineBrTarget⟩, ⟨"ble.un", 0x43, .inlineBrTarget⟩,
    ⟨"blt.un", 0x44, .inlineBrTarget⟩, ⟨"switch", 0x45, .inlineSwitch⟩,
    ⟨"ldind.i1", 0x46, .inlineNone⟩, ⟨"ldind.u1", 0x47, .inlineNone⟩,
    ⟨"ldind.i2", 0x48, .inlineNone⟩, ⟨"ldind.u2", 0x49, .inlineNone⟩,
    ⟨"ldind.i4", 0x4a, .inlineNone⟩, ⟨"ldind.u4", 0x4b, .inlineNone⟩,
    ⟨"ldind.i8", 0x4c, .inlineNone⟩, ⟨"ldind.i", 0x4d, .inlineNone⟩,
    ⟨"ldind.r4", 0x4e, .inlineNone⟩, ⟨"ldind.r8", 0x4f, .inlineNone⟩,
    ⟨"ldind.ref", 0x50, .inlineNone⟩, ⟨"stind.ref", 0x51, .inlineNone⟩,
    ⟨"stind.i1", 0x52, .inlineNone⟩, ⟨"stind.i2", 0x53, .inlineNone⟩,
    ⟨"stind.i4", 0x54, .inlineNone⟩, ⟨"stind.i8", 0x55, .inlineNone⟩,
    ⟨"stind.r4", 0x56, .inlineNone⟩, ⟨"stind.r8", 0x57, .inlineNone⟩, ⟨"add", 0x58, .inlineNone⟩,
    ⟨"sub", 0x59, .inlineNone⟩, ⟨"mul", 0x5a, .inlineNone⟩, ⟨"div", 0x5b, .inlineNone⟩,
    ⟨"div.un", 0x5c, .inlineNone⟩, ⟨"rem", 0x5d, .inlineNone⟩, ⟨"rem.un", 0x5e, .inlineNone⟩,
    ⟨"and", 0x5f, .inlineNone⟩, ⟨"or", 0x60, .inlineNone⟩, ⟨"xor", 0x61, .inlineNone⟩,
    ⟨"shl", 0x62, .inlineNone⟩, ⟨"shr", 0x63, .inlineNone⟩, ⟨"shr.un", 0x64, .inlineNone⟩,
    ⟨"neg", 0x65, .inlineNone⟩, ⟨"not", 0x66, .inlineNone⟩, ⟨"conv.i1", 0x67, .inlineNone⟩,
    ⟨"conv.i2", 0x68, .inlineNone⟩, ⟨"conv.i4", 0x69, .inlineNone⟩,
    ⟨"conv.i8", 0x6a, .inlineNone⟩, ⟨"conv.r4", 0x6b, .inlineNone⟩,
    ⟨"conv.r8", 0x6c, .inlineNone⟩, ⟨"conv.u4", 0x6d, .inlineNone⟩,
    ⟨"conv.u8", 0x6e, .inlineNone⟩, ⟨"callvirt", 0x6f, .inlineMethod⟩,
    ⟨"cpobj", 0x70, .inlineType⟩, ⟨"ldobj", 0x71, .inlineType⟩, ⟨"ldstr", 0x72, .inlineString⟩,
    ⟨"newobj", 0x73, .inlineMethod⟩, ⟨"castclass", 0x74, .inlineType⟩,
    ⟨"isinst", 0x75, .inlineType⟩, ⟨"conv.r.un", 0x76, .inlineNone⟩, ⟨"unbox", 0x79, .inlineType⟩,
    ⟨"throw", 0x7a, .inlineNone⟩, ⟨"ldfld", 0x7b, .inlineField⟩, ⟨"ldflda", 0x7c, .inlineField⟩,
    ⟨"stfld", 0x7d, .inlineField⟩, ⟨"ldsfld", 0x7e, .inlineField⟩,
    ⟨"ldsflda", 0x7f, .inlineField⟩, ⟨"stsfld", 0x80, .inlineField⟩, ⟨"stobj", 0x81, .inlineType⟩,
    ⟨"conv.ovf.i1.un", 0x82, .inlineNone⟩, ⟨"conv.ovf.i2.un", 0x83, .inlineNone⟩,
    ⟨"conv.ovf.i4.un", 0x84, .inlineNone⟩, ⟨"conv.ovf.i8.un", 0x85, .inlineNone⟩,
    ⟨"conv.ovf.u1.un", 0x86, .inlineNone⟩, ⟨"conv.ovf.u2.un", 0x87, .inlineNone⟩,
    ⟨"conv.ovf.u4.un", 0x88, .inlineNone⟩, ⟨"conv.ovf.u8.un", 0x89, .inlineNone⟩,
    ⟨"conv.ovf.i.un", 0x8a, .inlineNone⟩, ⟨"conv.ovf.u.un", 0x8b, .inlineNone⟩,
    ⟨"box", 0x8c, .inlineType⟩, ⟨"newarr", 0x8d, .inlineType⟩, ⟨"ldlen", 0x8e, .inlineNone⟩,
    ⟨"ldelema", 0x8f, .inlineType⟩, ⟨"ldelem.i1", 0x90, .inlineNone⟩,
    ⟨"ldelem.u1", 0x91, .inlineNone⟩, ⟨"ldelem.i2", 0x92, .inlineNone⟩,
    ⟨"ldelem.u2", 0x93, .inlineNone⟩, ⟨"ldelem.i4", 0x94, .inlineNone⟩,
    ⟨"ldelem.u4", 0x95, .inlineNone⟩, ⟨"ldelem.i8", 0x96, .inlineNone⟩,
    ⟨"ldelem.i", 0x97, .inlineNone⟩, ⟨"ldelem.r4", 0x98, .inlineNone⟩,
    ⟨"ldelem.r8", 0x99, .inlineNone⟩, ⟨"ldelem.ref", 0x9a, .inlineNone⟩,
    ⟨"stelem.i", 0x9b, .inlineNone⟩, ⟨"stelem.i1", 0x9c, .inlineNone⟩,
    ⟨"stelem.i2", 0x9d, .inlineNone⟩, ⟨"stelem.i4", 0x9e, .inlineNone⟩,
    ⟨"stelem.i8", 0x9f, .inlineNone⟩, ⟨"stelem.r4", 0xa0, .inlineNone⟩,
    ⟨"stelem.r8", 0xa1, .inlineNone⟩, ⟨"stelem.ref", 0xa2, .inlineNone⟩,
    ⟨"ldelem", 0xa3, .inlineType⟩, ⟨"stelem", 0xa4, .inlineType⟩,
    ⟨"unbox.any", 0xa5, .inlineType⟩, ⟨"conv.ovf.i1", 0xb3, .inlineNone⟩,
    ⟨"conv.ovf.u1", 0xb4, .inlineNone⟩, ⟨"conv.ovf.i2", 0xb5, .inlineNone⟩,
    ⟨"conv.ovf.u2", 0xb6, .inlineNone⟩, ⟨"conv.ovf.i4", 0xb7, .inlineNone⟩,
    ⟨"conv.ovf.u4", 0xb8, .inlineNone⟩, ⟨"conv.ovf.i8", 0xb9, .inlineNone⟩,
    ⟨"conv.ovf.u8", 0xba, .inlineNone⟩, ⟨"refanyval", 0xc2, .inlineType⟩,
    ⟨"ckfinite", 0xc3, .inlineNone⟩, ⟨"mkrefany", 0xc6, .inlineType⟩,
    ⟨"ldtoken", 0xd0, .inlineTok⟩, ⟨"conv.u2", 0xd1, .inlineNone⟩, ⟨"conv.u1", 0xd2, .inlineNone⟩,
    ⟨"conv.i", 0xd3, .inlineNone⟩, ⟨"conv.ovf.i", 0xd4, .inlineNone⟩,
    ⟨"conv.ovf.u", 0xd5, .inlineNone⟩, ⟨"add.ovf", 0xd6, .inlineNone⟩,
    ⟨"add.ovf.un", 0xd7, .inlineNone⟩, ⟨"mul.ovf", 0xd8, .inlineNone⟩,
    ⟨"mul.ovf.un", 0xd9, .inlineNone⟩, ⟨"sub.ovf", 0xda, .inlineNone⟩,
    ⟨"sub.ovf.un", 0xdb, .inlineNone⟩, ⟨"endfinally", 0xdc, .inlineNone⟩,
    ⟨"leave", 0xdd, .inlineBrTarget⟩, ⟨"leave.s", 0xde, .shortInlineBrTarget⟩,
    ⟨"stind.i", 0xdf, .inlineNone⟩, ⟨"conv.u", 0xe0, .inlineNone⟩,
    ⟨"arglist", 0xfe00, .inlineNone⟩, ⟨"ceq", 0xfe01, .inlineNone⟩, ⟨"cgt", 0xfe02, .inlineNone⟩,
    ⟨"cgt.un", 0xfe03, .inlineNone⟩, ⟨"clt", 0xfe04, .inlineNone⟩,
    ⟨"clt.un", 0xfe05, .inlineNone⟩, ⟨"ldftn", 0xfe06, .inlineMethod⟩,
    ⟨"ldvirtftn", 0xfe07, .inlineMethod⟩, ⟨"ldarg", 0xfe09, .inlineArg⟩,
    ⟨"ldarga", 0xfe0a, .inlineArg⟩, ⟨"starg", 0xfe0b, .inlineArg⟩, ⟨"ldloc", 0xfe0c, .inlineVar⟩,
    ⟨"ldloca", 0xfe0d, .inlineVar⟩, ⟨"stloc", 0xfe0e, .inlineVar⟩,
    ⟨"localloc", 0xfe0f, .inlineNone⟩, ⟨"endfilter", 0xfe11, .inlineNone⟩,
    ⟨"unaligned.", 0xfe12, .shortInlineI⟩, ⟨"volatile.", 0xfe13, .inlineNone⟩,
    ⟨"tail.", 0xfe14, .inlineNone⟩, ⟨"initobj", 0xfe15, .inlineType⟩,
    ⟨"constrained.", 0xfe16, .inlineType⟩, ⟨"cpblk", 0xfe17, .inlineNone⟩,
    ⟨"initblk", 0xfe18, .inlineNone⟩, ⟨"no.", 0xfe19, .shortInlineI⟩,
    ⟨"rethrow", 0xfe1a, .inlineNone⟩, ⟨"sizeof", 0xfe1c, .inlineType⟩,
    ⟨"refanytype", 0xfe1d, .inlineNone⟩, ⟨"readonly.", 0xfe1e, .inlineNone⟩]

/-- The opcode with a mnemonic. -/
def named? (name : String) : Option Opcode :=
  table.find? (·.name == name)

/-- The branch that takes a 32-bit distance in place of the 8-bit one of a short branch. -/
def longForm? (op : Opcode) : Option Opcode :=
  match op.operandType, op.name.toList.reverse with
  | .shortInlineBrTarget, 's' :: '.' :: stem => named? (String.ofList stem.reverse)
  | _, _ => none

end Opcode

end CilMethod
