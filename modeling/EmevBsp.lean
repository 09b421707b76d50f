import EmevBsp.Library.TransitionSystem
import EmevBsp.Library.TableCrc
import EmevBsp.Library.CString
import EmevBsp.Library.OrderedMap
import EmevBsp.LibGeneric.Crc32
import EmevBsp.LibGeneric.Vsprintf
import EmevBsp.LibGeneric.Sprintf
import EmevBsp.Env.Image
import EmevBsp.Env.Layout
import EmevBsp.Env.Setenv
import EmevBsp.Env.Edit
import EmevBsp.Env.SetenvSpec
import EmevBsp.Env.SetenvRuns
import EmevBsp.Env.FwEnv
import EmevBsp.Env.FlashRedund
import EmevBsp.Env.FlashRedundRuns
import EmevBsp.Env.FlashSave
import EmevBsp.Env.NandBlocks
import EmevBsp.Env.NandRedund
import EmevBsp.Library.Tiling
import EmevBsp.Gralloc.Allocator
import EmevBsp.Gralloc.AllocatorInvariant
import EmevBsp.Library.IntervalList
import EmevBsp.Lmb.Region
import EmevBsp.Lmb.Table
import EmevBsp.Lmb.Apart
import EmevBsp.Lmb.Reserve
import EmevBsp.Library.Alignment
import EmevBsp.Lmb.Alloc
import EmevBsp.Mmc.Mmc
import EmevBsp.Mmc.Sectors
import EmevBsp.Mmc.Protect
import EmevBsp.LibGeneric.String
import EmevBsp.Memory.Memsize
import EmevBsp.Library.LossyChannel
import EmevBsp.Library.StopAndWait
import EmevBsp.Net.NetLoop
import EmevBsp.Net.Tftp
import EmevBsp.Net.TftpServer
import EmevBsp.Net.TftpClient
import EmevBsp.Net.TftpCorrect
import EmevBsp.Net.Ethernet
import EmevBsp.Net.Receive
import EmevBsp.Library.InternetChecksum
import EmevBsp.Net.RoundTrip
import EmevBsp.Net.Nfs
import EmevBsp.Net.NfsStale
import EmevBsp.Library.OptionField
import EmevBsp.Net.Dhcp
import EmevBsp.Net.DhcpOptions
import EmevBsp.Net.DhcpRuns
import EmevBsp.Load.SRecord
import EmevBsp.Flash.Flash
import EmevBsp.Load.Serial
import EmevBsp.Load.SerialCorrect
import EmevBsp.Flash.FlashWrite
import EmevBsp.Flash.FindSector
import EmevBsp.Flash.CfiStatus
import EmevBsp.Library.AddressSpace
import EmevBsp.Flash.CfiWrite
import EmevBsp.Flash.CfiBuffers
import EmevBsp.Flash.SectRangesExact
import EmevBsp.Flash.FlashSafe
import EmevBsp.Boot.Bootm
import EmevBsp.Gralloc.AnySize
import EmevBsp.Fdt.Tags
import EmevBsp.Fit.Hashes
import EmevBsp.Fit.Update
import EmevBsp.Readline.History
import EmevBsp.Readline.CreadLine
import EmevBsp.Readline.Sessions
import EmevBsp.Library.Positions
import EmevBsp.Nand.SkipBad
import EmevBsp.Nand.SkipBadCorrect
import EmevBsp.Nand.EraseOpts
import EmevBsp.Disk.PartDos
import EmevBsp.Disk.PartDosAgree
import EmevBsp.Library.Chains
import EmevBsp.Disk.PartDosEnds
import EmevBsp.Disk.PartEfi
import EmevBsp.Library.Stretch
import EmevBsp.Fat.Fat
import EmevBsp.Fat.Table
import EmevBsp.Fat.Contents
import EmevBsp.Fat.Root
import EmevBsp.Fat.Names
import EmevBsp.Fat.RootDir
import EmevBsp.Fat.Entries
import EmevBsp.Fat.Layout
import EmevBsp.Lmb.Cover
import EmevBsp.Fdt.OpenInto
import EmevBsp.Boot.Plan
import EmevBsp.Boot.PlanSound
import EmevBsp.Library.Words
import EmevBsp.Command.ParseLine
import EmevBsp.Fdt.Setprop
import EmevBsp.Fit.SetHashes
import EmevBsp.Overlay.Overlay
import EmevBsp.Overlay.HandOut
import EmevBsp.Mtd.Parts
import EmevBsp.Mtd.Commands
import EmevBsp.Mtd.Lists
import EmevBsp.Mtd.Current
import EmevBsp.Mtd.Tracking
import EmevBsp.Mtd.RoundTrip
import EmevBsp.Mtd.Editing
import EmevBsp.Mtd.Cache
import EmevBsp.Mtd.Counting
import EmevBsp.Mtd.PartsInvariant
import EmevBsp.Mtd.Buffers
import EmevBsp.Jffs2.Fragments
import EmevBsp.Jffs2.ReadInode
import EmevBsp.Jffs2.FindInode
import EmevBsp.Jffs2.NandCache
import EmevBsp.Jffs2.BuildLists
import EmevBsp.Jffs2.ScanWindow
import EmevBsp.Jffs2.ScanLists
import EmevBsp.Jffs2.ScanRun
import EmevBsp.Ext2.Dev
import EmevBsp.Ext2.Blocks
import EmevBsp.Ext2.ReadFile
import EmevBsp.Ext2.IterateDir
import EmevBsp.Ext2.IterateDirExact
import EmevBsp.Net.NfsServer
import EmevBsp.Net.NfsCorrect
import EmevBsp.Env.Getenv
import EmevBsp.Camera.CameraHardware
import EmevBsp.Camera.V4l2camera
import EmevBsp.Command.Macros
import EmevBsp.Readline.LineBuffer
import EmevBsp.Vold.VolumeAtomic
import EmevBsp.Env.FwFlash
import EmevBsp.Lmb.Atomic
import EmevBsp.Lmb.IsReserved
import EmevBsp.Lmb.Stops
import EmevBsp.Lmb.Sound
import EmevBsp.Lmb.Search
import EmevBsp.Lmb.Rounding
import EmevBsp.Gralloc.Framebuffer
import EmevBsp.MiniBoot.Fat
import EmevBsp.MiniBoot.CopyData
import EmevBsp.MiniBoot.RootSearch
import EmevBsp.Mmc.EraseGroups
import EmevBsp.Command.RunCommand
import EmevBsp.Command.Arguments
import EmevBsp.Command.Pieces
import EmevBsp.Command.Compose
import EmevBsp.Uimage.Checks
import EmevBsp.Uimage.Mkimage
import EmevBsp.Uimage.MultiRoundTrip
import EmevBsp.Library.Ring
import EmevBsp.Circbuf.Circbuf
import EmevBsp.Load.Img2srec
import EmevBsp.Load.ShortRecords
import EmevBsp.Load.Kermit
import EmevBsp.Load.KermitPackets
import EmevBsp.Load.KermitCorrect
import EmevBsp.Net.BootpVendor
import EmevBsp.Net.Cdp
import EmevBsp.Net.NfsPath
import EmevBsp.Net.NfsTimer
import EmevBsp.Net.EchoReply
import EmevBsp.Fat.LongNames
import EmevBsp.Fat.SubDir
import EmevBsp.Fat.EndOfChain
import EmevBsp.Ext2.DevreadExact
import EmevBsp.Boot.MemmoveWd
import EmevBsp.Fit.UpdateProtect
import EmevBsp.Cramfs.Lookup
import EmevBsp.Library.Calendar
import EmevBsp.Rtc.Date
import EmevBsp.Library.Pieces
import EmevBsp.AndroidInit.Firmware
import EmevBsp.Memory.AutoCalibration
import EmevBsp.AndroidInit.Logo
import EmevBsp.Usb.ParseConfig
import EmevBsp.Library.BlockPort
import EmevBsp.Mmc.Controllers
import EmevBsp.Mmc.BlockLoop
import EmevBsp.Mmc.SdioWrite
import EmevBsp.Mmc.SdcWrite
import EmevBsp.Mmc.MultiWrite
import EmevBsp.Jpeg.Jpeglib
import EmevBsp.Jpeg.ErrorPaths
import EmevBsp.Library.CommonPrefix
import EmevBsp.Command.AutoComplete
import EmevBsp.Command.Completions
import EmevBsp.Library.TwoRail
import EmevBsp.Nand.Ecc
import EmevBsp.Nand.Subpages
import EmevBsp.Env.Durable
