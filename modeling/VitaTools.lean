import VitaTools.RingBuf.Refinement
import VitaTools.RingBuf.Wakeup
import VitaTools.RingBuf.Placement
import VitaTools.Unarzl.SizeFree
import VitaTools.Unarzl.FilterInside
import VitaTools.Unarzl.RangeInvariant
import VitaTools.Unarzl.InputReads
import VitaTools.FagDec.Entente
import VitaTools.FagDec.Decompress
import VitaTools.Relocate.Footprint
import VitaTools.Relocate.Order
import VitaTools.Relocate.Decode
import VitaTools.Decompiler.Values
import VitaTools.Self.RoundTrip
import VitaTools.Self.Disk
import VitaTools.Self.Agree
import VitaTools.PrincessLog.Config
import VitaTools.PrincessLog.NetThread
import VitaTools.PsmLogUsb.UsbThread
import VitaTools.IoPlus.Devices
import VitaTools.Thgn.Hooker
import VitaTools.ErrorResolver.BruteForce
import VitaTools.ShipLog.Delivery
import VitaTools.Passes.Inside
import VitaTools.Passes.Agree
import VitaTools.Passes.Dead
import VitaTools.Passes.Pointers
import VitaTools.Passes.Named
import VitaTools.Passes.Fresh
import VitaTools.Passes.Capture
import VitaTools.Passes.Arithmetic
import VitaTools.Passes.Addresses
import VitaTools.VitaModule.Walks
import VitaTools.VitaModule.Names
import VitaTools.VitaModule.Lookup
import VitaTools.Self.SegmentSizes
import VitaTools.Self.Ranges
import VitaTools.Self.ControlInfo
import VitaTools.PhysMem.Dump
import VitaTools.FagDec.MenuChain
import VitaTools.PrincessLog.Utf16
import VitaTools.Passes.Ascii
import VitaTools.KdumpExtract.Extract
import VitaTools.Bootimage.StrReplace
import VitaTools.Bootimage.OldFormat
import VitaTools.Bootimage.Ends
import VitaTools.KblElf.ExtractElf
import VitaTools.Unarzl.CodeValues
import VitaTools.Sha256.Digest
import VitaTools.FagDec.Verify
import VitaTools.VitaModule.Reload
import VitaTools.DebugScreen.Puts
import VitaTools.DebugScreen.Bounds
import VitaTools.ShipLog.Dialog
import VitaTools.ElfBuilder.MakeElf
import VitaTools.Unarzl.Parses
import VitaTools.PrincessLog.Console
import VitaTools.PrincessLog.Lossless
