import DirectFB.TaskThreadsQ
import DirectFB.SurfaceBuffer
import DirectFB.TaskTimed
import DirectFB.VoodooResponse
import DirectFB.VoodooOutput
import DirectFB.GenefxSpans
import DirectFB.StretchBlitExact
import DirectFB.FusionSkirmish
import DirectFB.WindOfChange
import DirectFB.FusionObject
import DirectFB.FusionDispatcher
import DirectFB.FusionTransfer
import DirectFB.FusionReactor
import DirectFB.KeyRouting
import DirectFB.FrameAck
import DirectFB.PipeStream
import DirectFB.SurfaceTask
import DirectFB.DataBufferStreamed
import DirectFB.EventBuffer
import DirectFB.LayerControl
import DirectFB.LayerContext
import DirectFB.FontLru
import DirectFB.MessengerPort
import DirectFB.TaskNotify
import DirectFB.MotionInput
import DirectFB.WindowBinding
import DirectFB.SaWManWindOfChange
import DirectFB.SaWManUpdateRegion
import DirectFB.SaWManUpdateRegion2
import DirectFB.SaWManUpdateRegion4
import DirectFB.SaWManManager
import DirectFB.ColorHash
import DirectFB.FlipWait
import DirectFB.SoundStream
import DirectFB.Interlocks
import DirectFB.ClipLineNear
import DirectFB.MapProbes
import DirectFB.SurfaceManagerAdjust
import DirectFB.StretUpdate
import DirectFB.StretVisible
import DirectFB.SurfacePoolDisplace
import DirectFB.StateBalance
import DirectFB.ClipBlits
import DirectFB.StretSiblings
import DirectFB.DefaultStacking
import DirectFB.SurfacePoolOrder
import DirectFB.XopPlanes
import DirectFB.WindowResize
import DirectFB.RepaintStack
import DirectFB.SmoothScalePairs
import DirectFB.FusionObjectGet
import DirectFB.FusionRefZeroLock
import DirectFB.DispatchCleanups
import DirectFB.SurfaceReconfig
import DirectFB.SurfaceTransfer
import DirectFB.KeyModifiers
import DirectFB.BlitSource
import DirectFB.DirectFifo
import DirectFB.Playback
import DirectFB.WindowCreate
import DirectFB.SaWManProcessUpdates
import DirectFB.DrawString
import DirectFB.VoodooArrival
